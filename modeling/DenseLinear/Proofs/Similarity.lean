import DenseLinear.Proofs.FactorUniqueness

/-!
# Orthogonal similarity of the iterates

Each step of the eigenvalue iteration rewrites the matrix in the orthonormal basis that its first
factor gives. So every iterate is orthogonally similar to the matrix that the run started from,
whichever way the run ends: it has the same trace, and it is symmetric if that matrix is.
-/

namespace DenseLinear

theorem Vec.sum_toArray {K : Type} [Field K] {n : Nat} (v : Vec K n) :
    v.toArray.sum = ∑ i, v i := by
  conv_lhs => rw [← v.ofFn_entry]
  simp [Vec.toArray, Vec.ofFn, ← Array.sum_toList, List.sum_ofFn]

namespace Mat

section

variable {α : Type} {m n : Nat}

theorem toArray_diagonal (A : Mat α n n) :
    A.diagonal.toArray = (Vec.ofFn fun i => A i i).toArray := by
  apply Array.ext
  · simp
  · intro i hi hi'
    have hn : i < n := by simpa using hi'
    have h := Vec.getElem_toArray A.diagonal ⟨i, by simpa using hn⟩ hi
    have h' := Vec.getElem_toArray (Vec.ofFn fun i => A i i) ⟨i, hn⟩ hi'
    rw [h, h']
    simp [diagonal]

variable [RootScalar α]

def iterate (A : Mat α n n) : Nat → Except (Fin n) (Mat α n n)
  | 0 => .ok A
  | k + 1 => A.iterate k >>= swapFactors

theorem iterate_succ_eq_ok {A B : Mat α n n} {k : Nat} :
    A.iterate (k + 1) = .ok B ↔ ∃ C, A.iterate k = .ok C ∧ C.swapFactors = .ok B := by
  rw [iterate]
  exact bind_eq_ok

theorem iterate_succ_of_swapFactors {A B : Mat α n n} (h : A.swapFactors = .ok B) (k : Nat) :
    A.iterate (k + 1) = B.iterate k := by
  induction k with
  | zero => exact h
  | succ k ih => rw [iterate, ih, iterate]

theorem iterateFactors_eq_settled {A B : Mat α n n} {tolerance : α} {budget done steps : Nat}
    (h : A.iterateFactors tolerance budget done = .ok (.settled steps B)) :
    ∃ k C, steps = done + k + 1 ∧ A.iterate k = .ok C ∧ C.swapFactors = .ok B ∧
      DiagonalSettled tolerance C B := by
  induction budget generalizing A done with
  | zero => cases h
  | succ budget ih =>
    cases hA : A.swapFactors with
    | error c => simp [iterateFactors, hA] at h
    | ok C =>
      simp only [iterateFactors, hA] at h
      split at h
      · rename_i hsettled
        cases h
        exact ⟨0, A, rfl, rfl, hA, hsettled⟩
      · obtain ⟨k, D, hk, hD, hDB, hsettled⟩ := ih h
        refine ⟨k + 1, D, by omega, ?_, hDB, hsettled⟩
        rw [iterate_succ_of_swapFactors hA, hD]

theorem iterateFactors_eq_exhausted {A B : Mat α n n} {tolerance : α} {budget done : Nat}
    (h : A.iterateFactors tolerance budget done = .ok (.exhausted B)) :
    A.iterate budget = .ok B := by
  induction budget generalizing A done with
  | zero =>
    cases h
    rfl
  | succ budget ih =>
    cases hA : A.swapFactors with
    | error c => simp [iterateFactors, hA] at h
    | ok C =>
      simp only [iterateFactors, hA] at h
      split at h
      · cases h
      · rw [iterate_succ_of_swapFactors hA, ih h]

theorem eigenvalues_eq_ok {A : Mat α n n} {options : IterationOptions α} {v : Vec α n} :
    (A.eigenvalues options).result = .ok v ↔
      ∃ outcome, A.iterateFactors options.tolerance options.maxSteps 0 = .ok outcome ∧
        v = .ofFn fun i => outcome.last i i := by
  unfold eigenvalues
  cases A.iterateFactors options.tolerance options.maxSteps 0 with
  | error c => simp
  | ok outcome => simp [bind, eq_comm]

theorem events_eigenvalues {A : Mat α n n} {options : IterationOptions α} {outcome : Outcome α n}
    (h : A.iterateFactors options.tolerance options.maxSteps 0 = .ok outcome) :
    (A.eigenvalues options).events = [outcome.event options.maxSteps] := by
  unfold eigenvalues
  rw [h]
  rfl

end

/-- `B` is `A` in terms of an orthonormal basis, the columns of `Q`. -/
def OrthogonallySimilar {n : Nat} (A B : Mat ℝ n n) : Prop :=
  ∃ Q : Mat ℝ n n, Q.transpose.mul Q = identity n ∧ B = (Q.transpose.mul A).mul Q

namespace OrthogonallySimilar

variable {n : Nat} {A B C : Mat ℝ n n}

theorem refl (A : Mat ℝ n n) : OrthogonallySimilar A A :=
  ⟨identity n, by rw [transpose_identity, identity_mul],
    by rw [transpose_identity, identity_mul, mul_identity]⟩

theorem trans (hab : OrthogonallySimilar A B) (hbc : OrthogonallySimilar B C) :
    OrthogonallySimilar A C := by
  obtain ⟨Q, hQ, rfl⟩ := hab
  obtain ⟨P, hP, rfl⟩ := hbc
  refine ⟨Q.mul P, ?_, ?_⟩
  · rw [transpose_mul, mul_mul, ← mul_mul Q.transpose, hQ, identity_mul, hP]
  · simp only [transpose_mul, mul_mul]

theorem symm (h : OrthogonallySimilar A B) : OrthogonallySimilar B A := by
  obtain ⟨Q, hQ, rfl⟩ := h
  have hQ' : Q.mul Q.transpose = identity n := mul_eq_identity_comm.mp hQ
  refine ⟨Q.transpose, by rw [transpose_transpose, hQ'], ?_⟩
  rw [transpose_transpose, mul_mul, mul_mul, mul_mul, hQ', mul_identity, ← mul_mul, hQ',
    identity_mul]

theorem trace_eq (h : OrthogonallySimilar A B) : B.trace = A.trace := by
  obtain ⟨Q, hQ, rfl⟩ := h
  rw [trace_mul_comm, ← mul_mul, mul_eq_identity_comm.mp hQ, identity_mul]

theorem transpose_eq (h : OrthogonallySimilar A B) (hA : A.transpose = A) : B.transpose = B := by
  obtain ⟨Q, _, rfl⟩ := h
  rw [transpose_mul, transpose_mul, transpose_transpose, hA, mul_mul]

end OrthogonallySimilar

variable {n : Nat} {A B : Mat ℝ n n}

theorem swapFactors_eq_ok (h : A.swapFactors = .ok B) :
    ∃ q r : Mat ℝ n n, q.transpose.mul q = identity n ∧ (∀ a b, b < a → r a b = 0) ∧
      q.mul r = A ∧ B = r.mul q := by
  cases hf : A.qr with
  | error c => simp [swapFactors, hf, Except.map] at h
  | ok f =>
    have hfac := QR.upTo_factors hf
    simp only [swapFactors, hf, Except.map, Except.ok.injEq] at h
    exact ⟨f.q, f.r, hfac.transpose_mul_self, hfac.below, hfac.mul_eq, h.symm⟩

theorem swapFactors_orthogonallySimilar (h : A.swapFactors = .ok B) :
    OrthogonallySimilar A B := by
  obtain ⟨q, r, hq, _, rfl, rfl⟩ := swapFactors_eq_ok h
  refine ⟨q, hq, ?_⟩
  rw [← mul_mul, hq, identity_mul]

theorem iterate_orthogonallySimilar {k : Nat} (h : A.iterate k = .ok B) :
    OrthogonallySimilar A B := by
  induction k generalizing B with
  | zero =>
    cases h
    exact .refl A
  | succ k ih =>
    obtain ⟨C, hC, hCB⟩ := iterate_succ_eq_ok.mp h
    exact (ih hC).trans (swapFactors_orthogonallySimilar hCB)

theorem eigenvalues_iterate {options : IterationOptions ℝ} {v : Vec ℝ n}
    (h : (A.eigenvalues options).result = .ok v) :
    ∃ k B, A.iterate k = .ok B ∧ (v = .ofFn fun i => B i i) ∧
      ((A.eigenvalues options).events = [.settled k] ∨
        (A.eigenvalues options).events = [.exhausted options.maxSteps] ∧ k = options.maxSteps) := by
  obtain ⟨outcome, hrun, rfl⟩ := eigenvalues_eq_ok.mp h
  rw [events_eigenvalues hrun]
  cases outcome with
  | settled steps B =>
    obtain ⟨k, C, hk, hC, hCB, _⟩ := iterateFactors_eq_settled hrun
    rw [Nat.zero_add] at hk
    subst hk
    exact ⟨k + 1, B, iterate_succ_eq_ok.mpr ⟨C, hC, hCB⟩, rfl, .inl rfl⟩
  | exhausted B => exact ⟨_, B, iterateFactors_eq_exhausted hrun, rfl, .inr ⟨rfl, rfl⟩⟩

end Mat

namespace DenseMatrix

theorem eigenvalues_eq_ok_iff {α : Type} [RootScalar α] {A : DenseMatrix α}
    {options : IterationOptions α} {values : DenseVector α} :
    (A.eigenvalues options).result = .ok values ↔ ∃ S v, A.toSquare = .ok S ∧
      (S.eigenvalues options).result = .ok v ∧ values = v.toArray := by
  unfold eigenvalues
  cases A.toSquare with
  | error e => simp [bind]
  | ok S => cases hv : (S.eigenvalues options).result <;> simp [hv, bind, eq_comm]

theorem events_eigenvalues_of_toSquare {α : Type} [RootScalar α] {A : DenseMatrix α}
    {S : Mat α A.height A.height} (hS : A.toSquare = .ok S) (options : IterationOptions α) :
    (A.eigenvalues options).events = (S.eigenvalues options).events := by
  unfold eigenvalues
  rw [hS]
  simp [Traced.events_bind_of_ok]

/-- Whichever way the run ends, the values are the diagonal of the matrix in an orthonormal basis.
So they add up to the trace, and a symmetric matrix stays symmetric all along. -/
theorem eigenvalues_orthogonally_similar (A : DenseMatrix ℝ) (options : IterationOptions ℝ)
    (values : DenseVector ℝ) (h : (A.eigenvalues options).result = .ok values) :
    (∃ Q T B : DenseMatrix ℝ,
      (∃ I, identity A.height = .ok I ∧ Q.transpose.mul Q = .ok I) ∧
      Q.transpose.mul A = .ok T ∧ T.mul Q = .ok B ∧ values = B.diagonal) ∧
    A.trace = .ok values.sum ∧
    ∃ S, A.toSquare = .ok S ∧
      (∃ k B, S.iterate k = .ok B ∧ values = (A.ofSquare B).diagonal ∧
        ((A.eigenvalues options).events = [.settled k] ∨
          (A.eigenvalues options).events = [.exhausted options.maxSteps] ∧
            k = options.maxSteps)) ∧
      (S.transpose = S → ∀ k B, S.iterate k = .ok B → B.transpose = B) := by
  obtain ⟨S, v, hS, hv, rfl⟩ := eigenvalues_eq_ok_iff.mp h
  have hevents := events_eigenvalues_of_toSquare hS options
  obtain ⟨m, n, hm, hn, E⟩ := A
  obtain rfl : n = m := width_eq_of_toSquare hS
  obtain rfl : E = S := Except.ok.inj ((toSquare_mk hm hn E).symm.trans hS)
  obtain ⟨k, B, hB, rfl, hend⟩ := Mat.eigenvalues_iterate hv
  have hsim := Mat.iterate_orthogonallySimilar hB
  refine ⟨?_, ?_, E, hS, ⟨k, B, hB, ?_, ?_⟩, ?_⟩
  · obtain ⟨Q, hQ, hBQ⟩ := hsim
    refine ⟨mk n n hm hm Q, mk n n hm hm (Q.transpose.mul E), mk n n hm hm B,
      ⟨_, identity_mk hm, ?_⟩, ?_, ?_, ?_⟩
    · simp only [transpose, mul_mk, hQ]
    · exact mul_mk hm hm _ _
    · rw [mul_mk, hBQ]
    · exact (Mat.toArray_diagonal B).symm
  · have htrace : E.trace = ∑ i, B i i := by rw [← hsim.trace_eq, Mat.trace_eq]
    rw [Vec.sum_toArray]
    simp [trace, hS, bind, Except.bind, pure, Except.pure, htrace]
  · exact (Mat.toArray_diagonal B).symm
  · rwa [hevents]
  · intro hsymm k C hC
    exact (Mat.iterate_orthogonallySimilar hC).transpose_eq hsymm

/-- One step exchanges the diagonal entries, less what it moves between them. -/
noncomputable def coupled : Mat ℝ 2 2 := .ofFn ![![9, 12], ![12, 41]]

theorem swapFactors_coupled : coupled.swapFactors = .ok (.ofFn ![![41, 12], ![12, 9]]) := by
  let q : Mat ℝ 2 2 := .ofFn ![![3 / 5, -4 / 5], ![4 / 5, 3 / 5]]
  let r : Mat ℝ 2 2 := .ofFn ![![15, 40], ![0, 15]]
  have hq : q.transpose.mul q = .identity 2 := by
    ext i j
    fin_cases i <;> fin_cases j <;> simp [q, sumFrom_eq] <;> norm_num
  have hqr : q.mul r = coupled := by
    ext i j
    fin_cases i <;> fin_cases j <;> simp [q, r, coupled, sumFrom_eq] <;> norm_num
  have hrq : r.mul q = .ofFn ![![41, 12], ![12, 9]] := by
    ext i j
    fin_cases i <;> fin_cases j <;> simp [q, r, sumFrom_eq] <;> norm_num
  have hbelow (a b : Fin 2) (hab : b < a) : r a b = 0 := by
    fin_cases a <;> fin_cases b <;> simp [r] at hab ⊢
  have hdiag (i : Fin 2) : 1 / 10 ^ 10 ≤ r i i := by
    fin_cases i <;> norm_num [r]
  rw [← hqr, Mat.swapFactors_mul hq hbelow hdiag, hrq]

theorem eigenvalues_coupled :
    let A : DenseMatrix ℝ := ⟨2, 2, Nat.two_pos, Nat.two_pos, coupled⟩
    let options : IterationOptions ℝ := ⟨1, 1 / 10 ^ 10⟩
    (A.eigenvalues options).result = .ok #[41, 9] ∧
    (∃ Q T B : DenseMatrix ℝ,
      (∃ I, identity 2 = .ok I ∧ Q.transpose.mul Q = .ok I) ∧
      Q.transpose.mul A = .ok T ∧ T.mul Q = .ok B ∧ #[41, 9] = B.diagonal) ∧
    A.trace = .ok (#[41, 9] : Array ℝ).sum := by
  intro A options
  have hrun : coupled.iterateFactors (1 / 10 ^ 10) 1 0 =
      .ok (.exhausted (.ofFn ![![41, 12], ![12, 9]])) := by
    have hmove : ¬Mat.DiagonalSettled (1 / 10 ^ 10) coupled (.ofFn ![![41, 12], ![12, 9]]) := by
      intro h
      have h₀ := h 0
      change |_| < _ at h₀
      norm_num [coupled] at h₀
    simp only [Mat.iterateFactors, swapFactors_coupled, if_neg hmove]
  have hvalues : (A.eigenvalues options).result = .ok #[41, 9] :=
    eigenvalues_eq_ok_iff.mpr ⟨coupled, _, toSquare_mk _ _ _,
      Mat.eigenvalues_eq_ok.mpr ⟨_, hrun, rfl⟩, rfl⟩
  obtain ⟨hsim, htrace, _⟩ := eigenvalues_orthogonally_similar A options _ hvalues
  exact ⟨hvalues, hsim, htrace⟩

end DenseMatrix

end DenseLinear
