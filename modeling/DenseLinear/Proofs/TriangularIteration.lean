import DenseLinear.Proofs.IterationRuns

/-!
# Iteration of triangular matrices

All that is left of a column of an upper triangular matrix, without its components along the columns
before, is its diagonal entry. So the first orthogonal factor holds the signs of the diagonal, and
the second is the matrix with these signs taken out of its rows. In the product the other way round
each diagonal entry meets its sign again, and a run settles in its first step, exactly on the
diagonal, whatever stands above it. It is refused if a diagonal entry is below the tolerance.
-/

namespace DenseLinear

namespace Mat

section

variable {n : Nat} {A : Mat ℝ n n}

/-- Minus one for each negative diagonal entry and one for each other, on the diagonal. -/
noncomputable def diagonalSigns (A : Mat ℝ n n) : Mat ℝ n n :=
  ofDiagonal (.ofFn fun i => if A i i < 0 then -1 else 1)

theorem diagonalSigns_mul_apply (A B : Mat ℝ n n) (i j : Fin n) :
    (A.diagonalSigns.mul B) i j = if A i i < 0 then -B i j else B i j := by
  rw [diagonalSigns, ofDiagonal_mul_apply, Vec.entry_ofFn, ite_mul, neg_one_mul, one_mul]

theorem mul_diagonalSigns_apply (A B : Mat ℝ n n) (i j : Fin n) :
    (B.mul A.diagonalSigns) i j = if A j j < 0 then -B i j else B i j := by
  rw [diagonalSigns, mul_ofDiagonal_apply, Vec.entry_ofFn, mul_ite, mul_neg_one, mul_one]

/-- Each sign cancels itself. -/
theorem diagonalSigns_mul_diagonalSigns_mul (A B : Mat ℝ n n) :
    A.diagonalSigns.mul (A.diagonalSigns.mul B) = B := by
  ext i j
  simp only [diagonalSigns_mul_apply]
  split_ifs
  · exact neg_neg _
  · rfl

theorem transpose_mul_diagonalSigns (A : Mat ℝ n n) :
    A.diagonalSigns.transpose.mul A.diagonalSigns = identity n := by
  have htranspose : A.diagonalSigns.transpose = A.diagonalSigns := by
    ext i j
    rw [transpose_apply, diagonalSigns, ofDiagonal_apply, ofDiagonal_apply]
    split_ifs with hji hij hij
    · rw [hji]
    · exact absurd hji.symm hij
    · exact absurd hij.symm hji
    · rfl
  have hcancel := diagonalSigns_mul_diagonalSigns_mul A (identity n)
  rw [htranspose]
  rwa [mul_identity] at hcancel

theorem diagonalSigns_mul_self (A : Mat ℝ n n) (i : Fin n) :
    (A.diagonalSigns.mul A) i i = |A i i| := by
  rw [diagonalSigns_mul_apply]
  split_ifs with h
  · exact (abs_of_neg h).symm
  · exact (abs_of_nonneg (not_lt.mp h)).symm

variable (hbelow : ∀ a b, b < a → A a b = 0)

include hbelow

theorem diagonalSigns_mul_below (a b : Fin n) (h : b < a) : (A.diagonalSigns.mul A) a b = 0 := by
  rw [diagonalSigns_mul_apply, hbelow a b h, neg_zero, ite_self]

/-- The factors of an upper triangular matrix. -/
theorem qr_of_triangular (hdiag : ∀ i, 1 / 10 ^ 10 ≤ |A i i|) :
    A.qr = .ok ⟨A.diagonalSigns, A.diagonalSigns.mul A⟩ := by
  have h := qr_mul A.transpose_mul_diagonalSigns (diagonalSigns_mul_below hbelow)
    fun i => (hdiag i).trans_eq (A.diagonalSigns_mul_self i).symm
  rwa [diagonalSigns_mul_diagonalSigns_mul] at h

theorem qr_of_triangular_eq_error {c : Fin n} (hbefore : ∀ i < c, 1 / 10 ^ 10 ≤ |A i i|)
    (hc : |A c c| < 1 / 10 ^ 10) : A.qr = .error c := by
  have h := qr_mul_eq_error A.transpose_mul_diagonalSigns (diagonalSigns_mul_below hbelow)
    (fun i hi => (hbefore i hi).trans_eq (A.diagonalSigns_mul_self i).symm)
    ((abs_nonneg _).trans_eq (A.diagonalSigns_mul_self c).symm)
    ((A.diagonalSigns_mul_self c).trans_lt hc)
  rwa [diagonalSigns_mul_diagonalSigns_mul] at h

theorem swapFactors_of_triangular (hdiag : ∀ i, 1 / 10 ^ 10 ≤ |A i i|) :
    A.swapFactors = .ok ((A.diagonalSigns.mul A).mul A.diagonalSigns) := by
  rw [swapFactors, qr_of_triangular hbelow hdiag]
  rfl

omit hbelow in
/-- A step changes signs above the diagonal at most. -/
theorem swapped_apply_self (A : Mat ℝ n n) (i : Fin n) :
    ((A.diagonalSigns.mul A).mul A.diagonalSigns) i i = A i i := by
  rw [mul_diagonalSigns_apply, diagonalSigns_mul_apply]
  split_ifs
  · exact neg_neg _
  · rfl

theorem eigenvalues_of_triangular (hdiag : ∀ i, 1 / 10 ^ 10 ≤ |A i i|)
    {options : IterationOptions ℝ} (htolerance : 0 < options.tolerance)
    (hsteps : 1 ≤ options.maxSteps) :
    A.eigenvalues options = ⟨[.settled 1], .ok (.ofFn fun i => A i i)⟩ := by
  obtain ⟨B, hB, hdiagonal⟩ : ∃ B, A.swapFactors = .ok B ∧ ∀ i, B i i = A i i :=
    ⟨_, swapFactors_of_triangular hbelow hdiag, A.swapped_apply_self⟩
  have hsettled : DiagonalSettled options.tolerance A B := by
    intro i
    change |B i i - A i i| < _
    rwa [hdiagonal, sub_self, abs_zero]
  have hleast : IsLeast {k | A.SettlesAt options.tolerance k} 1 :=
    ⟨(settlesAt_one_iff hB).mpr hsettled, fun _ hk => hk.pos⟩
  have hrun := eigenvalues_of_settlesAt hleast hB hsteps
  rwa [funext hdiagonal] at hrun

theorem eigenvalues_standard_of_triangular (hdiag : ∀ i, 1 / 10 ^ 10 ≤ |A i i|) :
    (A.eigenvalues .standard).result = .ok (.ofFn fun i => A i i) := by
  rw [eigenvalues_of_triangular hbelow hdiag tolerance_pos (by decide)]

end

end Mat

namespace DenseMatrix

/-- The first factor of an upper triangular matrix holds the signs of the diagonal, and the second is
the matrix without them. A run settles in its first step, on their product the other way round, with
the diagonal as it is. If there are diagonal entries below the tolerance, it is refused at the first
of them. -/
theorem triangular_settles_on_diagonal (A : DenseMatrix ℝ) (S : Mat ℝ A.height A.height)
    (hS : A.toSquare = .ok S) (hbelow : ∀ i j, j < i → S i j = 0) (options : IterationOptions ℝ)
    (htolerance : 0 < options.tolerance) (hsteps : 1 ≤ options.maxSteps) :
    ((∀ i, 1 / 10 ^ 10 ≤ |S i i|) →
      S.qr = .ok ⟨S.diagonalSigns, S.diagonalSigns.mul S⟩ ∧
      S.swapFactors = .ok ((S.diagonalSigns.mul S).mul S.diagonalSigns) ∧
      A.eigenvalues options = ⟨[.settled 1], .ok A.diagonal⟩) ∧
    ∀ c, (∀ i < c, 1 / 10 ^ 10 ≤ |S i i|) → |S c c| < 1 / 10 ^ 10 →
      A.eigenvalues options = ⟨[], .error (.rankDeficient c)⟩ := by
  constructor
  · intro hdiag
    have hdiagonal : A.diagonal = (Vec.ofFn fun i => S i i).toArray :=
      (congrArg diagonal (eq_ofSquare_of_toSquare hS)).trans S.toArray_diagonal
    rw [eigenvalues_of_toSquare hS (Mat.eigenvalues_of_triangular hbelow hdiag htolerance hsteps),
      hdiagonal]
    exact ⟨Mat.qr_of_triangular hbelow hdiag, Mat.swapFactors_of_triangular hbelow hdiag, rfl⟩
  · intro c hbefore hc
    exact eigenvalues_of_toSquare hS
      (Mat.eigenvalues_of_qr_error (Mat.qr_of_triangular_eq_error hbelow hbefore hc) hsteps)

/-- It has fewer eigenvectors than columns. -/
noncomputable def reflectedShear : Mat ℝ 3 3 := .ofFn ![![-1, 1, 1], ![0, 1, 1], ![0, 0, -1]]

/-- The second column is short once the first is taken out of it. -/
noncomputable def collapsed : Mat ℝ 2 2 := .ofFn ![![-1, 1], ![0, 0]]

theorem triangular_reflectedShear_collapsed :
    let A : DenseMatrix ℝ := ⟨3, 3, Nat.succ_pos 2, Nat.succ_pos 2, reflectedShear⟩
    let B : DenseMatrix ℝ := ⟨2, 2, Nat.two_pos, Nat.two_pos, collapsed⟩
    A.toSquare = .ok reflectedShear ∧ B.toSquare = .ok collapsed ∧
    (∀ i j, j < i → reflectedShear i j = 0) ∧ (∀ i j, j < i → collapsed i j = 0) ∧
    reflectedShear.swapFactors = .ok (.ofFn ![![-1, -1, 1], ![0, 1, -1], ![0, 0, -1]]) ∧
    A.eigenvalues ⟨1, 1 / 10 ^ 10⟩ = ⟨[.settled 1], .ok #[-1, 1, -1]⟩ ∧
    B.eigenvalues .standard = ⟨[], .error (.rankDeficient 1)⟩ := by
  intro A B
  have hA : A.toSquare = .ok reflectedShear := toSquare_mk _ _ _
  have hB : B.toSquare = .ok collapsed := toSquare_mk _ _ _
  have hbelowA (i j : Fin 3) (h : j < i) : reflectedShear i j = 0 := by
    fin_cases i <;> fin_cases j <;> simp [reflectedShear] at h ⊢
  have hbelowB (i j : Fin 2) (h : j < i) : collapsed i j = 0 := by
    fin_cases i <;> fin_cases j <;> simp [collapsed] at h ⊢
  have hdiagonal : A.diagonal = #[-1, 1, -1] := rfl
  have hlong (i : Fin 3) : 1 / 10 ^ 10 ≤ |reflectedShear i i| := by
    fin_cases i <;> norm_num [reflectedShear]
  have hfirst (i : Fin 2) (h : i < 1) : 1 / 10 ^ 10 ≤ |collapsed i i| := by
    obtain rfl : i = 0 := Fin.lt_one_iff i |>.mp h
    norm_num [collapsed]
  have hshort : |collapsed 1 1| < 1 / 10 ^ 10 := by norm_num [collapsed]
  obtain ⟨_, hswap, hvalues⟩ :=
    (triangular_settles_on_diagonal A _ hA hbelowA ⟨1, 1 / 10 ^ 10⟩ tolerance_pos le_rfl).1 hlong
  refine ⟨hA, hB, hbelowA, hbelowB, ?_, ?_, ?_⟩
  · rw [hswap]
    congr 1
    ext i j
    rw [Mat.mul_diagonalSigns_apply, Mat.diagonalSigns_mul_apply]
    fin_cases i <;> fin_cases j <;> norm_num [reflectedShear]
  · rw [← hdiagonal]
    exact hvalues
  · exact (triangular_settles_on_diagonal B _ hB hbelowB .standard tolerance_pos (by decide)).2 1
      hfirst hshort

end DenseMatrix

end DenseLinear
