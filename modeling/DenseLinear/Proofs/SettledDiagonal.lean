import DenseLinear.Proofs.SymmetricSpectrum

/-!
# What a settled diagonal says

A step of the iteration turns the leading coordinates into the span of the leading columns, and the
trace of the leading block grows by two quadratic forms in what the two do not share. If the
eigenvalues are positive, these forms bound the entries below the block. So a diagonal that settles
leaves little beside it, and is near to the eigenvalues. Without a sign this is wrong: the forms
may cancel, and the diagonal may settle anywhere.
-/

namespace DenseLinear

section

open Matrix

variable {n : Nat}

structure IsProjection (P : Matrix (Fin n) (Fin n) ℝ) : Prop where
  transpose_eq : Pᵀ = P
  mul_self : P * P = P

noncomputable def leading (n k : Nat) : Matrix (Fin n) (Fin n) ℝ :=
  diagonal fun i => if i.val < k then 1 else 0

theorem isProjection_leading (k : Nat) : IsProjection (leading n k) where
  transpose_eq := diagonal_transpose _
  mul_self := by simp [leading]

/-- An upper triangular matrix maps the leading coordinates to themselves. -/
theorem leading_mul_mul_leading {R : Matrix (Fin n) (Fin n) ℝ} (hR : ∀ a b, b < a → R a b = 0)
    (k : Nat) : leading n k * R * leading n k = R * leading n k := by
  ext a b
  simp only [leading, mul_diagonal, diagonal_mul]
  by_cases hb : b.val < k
  · by_cases ha : a.val < k
    · rw [if_pos ha, one_mul]
    · rw [hR a b (Fin.lt_def.mpr (by omega)), mul_zero]
  · rw [if_neg hb, mul_zero, mul_zero]

theorem trace_transpose_mul_self (M : Matrix (Fin n) (Fin n) ℝ) :
    trace (Mᵀ * M) = ∑ i, ∑ j, M i j ^ 2 := by
  rw [Finset.sum_comm]
  simp only [trace, diag_apply, mul_apply, transpose_apply, sq]

theorem trace_transpose_mul_self_nonneg (M : Matrix (Fin n) (Fin n) ℝ) : 0 ≤ trace (Mᵀ * M) := by
  rw [trace_transpose_mul_self]
  positivity

theorem trace_conj_nonneg {C : Matrix (Fin n) (Fin n) ℝ} {a b : ℝ}
    (h : (a • 1 + b • C).PosSemidef) (X : Matrix (Fin n) (Fin n) ℝ) :
    0 ≤ a * trace (Xᵀ * X) + b * trace (Xᵀ * C * X) := by
  have hconj := (h.conjTranspose_mul_mul_same X).trace_nonneg
  rwa [conjTranspose_eq_transpose_of_trivial, Matrix.mul_add, Matrix.add_mul, Matrix.mul_smul,
    Matrix.smul_mul, Matrix.mul_one, Matrix.mul_smul, Matrix.smul_mul, trace_add, trace_smul,
    trace_smul, smul_eq_mul, smul_eq_mul] at hconj

namespace IsProjection

variable {C P E Q : Matrix (Fin n) (Fin n) ℝ} {l u : ℝ}

theorem conj (hP : IsProjection P) (hQ : Qᵀ * Q = 1) : IsProjection (Q * P * Qᵀ) where
  transpose_eq := by
    simp only [transpose_mul, transpose_transpose, hP.transpose_eq, mul_assoc]
  mul_self := by
    calc
      Q * P * Qᵀ * (Q * P * Qᵀ) = Q * P * (Qᵀ * Q) * P * Qᵀ := by simp only [mul_assoc]
      _ = Q * P * Qᵀ := by rw [hQ, mul_one, mul_assoc Q, hP.mul_self]

theorem one_sub (hP : IsProjection P) : IsProjection (1 - P) where
  transpose_eq := by rw [transpose_sub, transpose_one, hP.transpose_eq]
  mul_self := by rw [sub_mul, one_mul, mul_sub, mul_one, hP.mul_self, sub_self, sub_zero]

theorem trace_mul_mul (hE : IsProjection E) (X : Matrix (Fin n) (Fin n) ℝ) :
    trace (E * X * E) = trace (X * E) := by
  rw [trace_mul_cycle, hE.mul_self, trace_mul_comm]

theorem trace_transpose_mul (hP : IsProjection P) (N : Matrix (Fin n) (Fin n) ℝ) :
    trace ((N * P)ᵀ * (N * P)) = trace (Nᵀ * N * P) := by
  rw [transpose_mul, hP.transpose_eq, ← mul_assoc, mul_assoc P, hP.trace_mul_mul]

theorem trace_transpose_mul_le (hP : IsProjection P) (N : Matrix (Fin n) (Fin n) ℝ) :
    trace ((N * P)ᵀ * (N * P)) ≤ trace (Nᵀ * N) := by
  have hrest := trace_transpose_mul_self_nonneg (N * (1 - P))
  calc
    trace ((N * P)ᵀ * (N * P)) ≤
        trace ((N * P)ᵀ * (N * P)) + trace ((N * (1 - P))ᵀ * (N * (1 - P))) := by linarith
    _ = trace (Nᵀ * N) := by
      rw [hP.trace_transpose_mul, hP.one_sub.trace_transpose_mul, ← trace_add, ← mul_add,
        add_sub_cancel, mul_one]

/-- If `C` maps the image of `P` into that of `E`, their traces against `C` differ by two quadratic
forms in the parts that the two projections do not share. -/
theorem trace_sub_trace (hP : IsProjection P) (hE : IsProjection E) (hC : Cᵀ = C)
    (hECP : E * C * P = C * P) :
    trace (E * C) - trace (P * C) =
      trace (((1 - P) * E)ᵀ * C * ((1 - P) * E)) + trace ((P * (1 - E))ᵀ * C * (P * (1 - E))) := by
  have hPCE : P * C * E = P * C := by
    have h := congrArg transpose hECP
    simpa only [transpose_mul, hP.transpose_eq, hE.transpose_eq, hC, ← mul_assoc] using h
  have hCPE : trace (C * P * E) = trace (C * P) := by
    rw [trace_mul_comm, ← mul_assoc, hECP]
  have hfirst : trace (((1 - P) * E)ᵀ * C * ((1 - P) * E)) =
      trace (E * C) - trace (P * C) - trace (C * P) + trace (P * C * P * E) := by
    have hexpand : ((1 - P) * E)ᵀ * C * ((1 - P) * E) =
        E * C * E - E * (P * C) * E - E * (C * P) * E + E * (P * C * P) * E := by
      rw [transpose_mul, hP.one_sub.transpose_eq, hE.transpose_eq]
      noncomm_ring
    rw [hexpand, trace_add, trace_sub, trace_sub]
    simp only [hE.trace_mul_mul]
    rw [hPCE, hCPE, trace_mul_comm C E]
  have hsecond : trace ((P * (1 - E))ᵀ * C * (P * (1 - E))) =
      trace (P * C) - trace (P * C * P * E) := by
    have hexpand : (P * (1 - E))ᵀ * C * (P * (1 - E)) =
        P * C * P - E * (P * C * P) - P * C * P * E + E * (P * C * P) * E := by
      rw [transpose_mul, hP.transpose_eq, hE.one_sub.transpose_eq]
      noncomm_ring
    rw [hexpand, trace_add, trace_sub, trace_sub, hE.trace_mul_mul, trace_mul_comm E,
      hP.trace_mul_mul, trace_mul_comm C P]
    ring
  rw [hfirst, hsecond, trace_mul_comm C P]
  ring

theorem mul_trace_block_le (hP : IsProjection P) (hE : IsProjection E) (hC : Cᵀ = C)
    (hECP : E * C * P = C * P) (hl : 0 < l) (hlow : (-l • 1 + (1 : ℝ) • C).PosSemidef)
    (hhigh : (u ^ 2 • 1 + (-1 : ℝ) • (C * C)).PosSemidef) :
    l * trace (((1 - P) * C * P)ᵀ * ((1 - P) * C * P)) ≤
      u ^ 2 * (trace (E * C) - trace (P * C)) := by
  have hX := trace_conj_nonneg hlow ((1 - P) * E)
  have hY := trace_conj_nonneg hlow (P * (1 - E))
  have hYY := mul_nonneg hl.le (trace_transpose_mul_self_nonneg (P * (1 - E)))
  have hgrowth : l * trace (((1 - P) * E)ᵀ * ((1 - P) * E)) ≤ trace (E * C) - trace (P * C) := by
    rw [hP.trace_sub_trace hE hC hECP]
    linarith
  have hblock : trace (((1 - P) * C * P)ᵀ * ((1 - P) * C * P)) ≤
      u ^ 2 * trace (((1 - P) * E)ᵀ * ((1 - P) * E)) := by
    have hXC := trace_conj_nonneg hhigh ((1 - P) * E)ᵀ
    rw [transpose_transpose, trace_mul_comm _ ((1 - P) * E)ᵀ] at hXC
    have hsquare : trace (((1 - P) * E * C)ᵀ * ((1 - P) * E * C)) =
        trace ((1 - P) * E * (C * C) * ((1 - P) * E)ᵀ) := by
      rw [trace_mul_comm, transpose_mul, hC]
      simp only [mul_assoc]
    have hinto : (1 - P) * C * P = (1 - P) * E * C * P := by
      rw [mul_assoc, ← hECP]
      simp only [mul_assoc]
    rw [hinto]
    linarith [hP.trace_transpose_mul_le ((1 - P) * E * C)]
  calc
    l * trace (((1 - P) * C * P)ᵀ * ((1 - P) * C * P)) ≤
        l * (u ^ 2 * trace (((1 - P) * E)ᵀ * ((1 - P) * E))) :=
      mul_le_mul_of_nonneg_left hblock hl.le
    _ = u ^ 2 * (l * trace (((1 - P) * E)ᵀ * ((1 - P) * E))) := by ring
    _ ≤ u ^ 2 * (trace (E * C) - trace (P * C)) :=
      mul_le_mul_of_nonneg_left hgrowth (sq_nonneg u)

end IsProjection

end

namespace Mat

variable {n : Nat} {A B : Mat ℝ n n} {d : Vec ℝ n} {tolerance l u : ℝ}

/-- The entries in the first `k` columns below the first `k` rows, with zeros for the others. -/
noncomputable def belowBlock (A : Mat ℝ n n) (k : Nat) : Matrix (Fin n) (Fin n) ℝ :=
  (1 - leading n k) * A.toMatrix * leading n k

theorem belowBlock_apply (A : Mat ℝ n n) (k : Nat) (a b : Fin n) :
    A.belowBlock k a b = if b.val < k ∧ k ≤ a then A a b else 0 := by
  rw [belowBlock, sub_mul, one_mul, leading, Matrix.mul_diagonal, Matrix.sub_apply,
    Matrix.diagonal_mul, toMatrix_apply]
  by_cases ha : a.val < k <;> by_cases hb : b.val < k <;> simp [ha, hb, not_le.mpr, not_lt.mp]

theorem sum_erase_sq_le (hA : A.transpose = A) {c : ℝ}
    (h : ∀ k, ∑ a, ∑ b, A.belowBlock k a b ^ 2 ≤ c) (i : Fin n) :
    ∑ j ∈ Finset.univ.erase i, A i j ^ 2 ≤ 2 * c := by
  have hsymm (a b : Fin n) : A a b = A b a := by
    conv_lhs => rw [← hA, transpose_apply]
  have hterm (j : Fin n) (hj : j ∈ Finset.univ.erase i) :
      A i j ^ 2 = A.belowBlock i i j ^ 2 + A.belowBlock (i + 1) j i ^ 2 := by
    simp only [belowBlock_apply]
    rcases lt_or_gt_of_ne (Finset.ne_of_mem_erase hj) with hlt | hgt
    · rw [if_pos ⟨hlt, le_rfl⟩, if_neg (by omega), zero_pow two_ne_zero, add_zero]
    · rw [if_neg (by omega), if_pos ⟨Nat.lt_succ_self _, hgt⟩, zero_pow two_ne_zero, zero_add,
        hsymm]
  have hrow : ∑ j, A.belowBlock i i j ^ 2 ≤ c :=
    (Finset.single_le_sum (f := fun a => ∑ j, A.belowBlock i a j ^ 2)
      (fun a _ => Finset.sum_nonneg fun j _ => sq_nonneg _) (Finset.mem_univ i)).trans (h i)
  have hcol : ∑ j, A.belowBlock (i + 1) j i ^ 2 ≤ c :=
    (Finset.sum_le_sum fun j _ =>
      Finset.single_le_sum (f := fun b => A.belowBlock (i + 1) j b ^ 2) (fun b _ => sq_nonneg _)
        (Finset.mem_univ i)).trans (h (i + 1))
  calc
    ∑ j ∈ Finset.univ.erase i, A i j ^ 2 =
        ∑ j ∈ Finset.univ.erase i, (A.belowBlock i i j ^ 2 + A.belowBlock (i + 1) j i ^ 2) :=
      Finset.sum_congr rfl hterm
    _ ≤ ∑ j, (A.belowBlock i i j ^ 2 + A.belowBlock (i + 1) j i ^ 2) :=
      Finset.sum_le_sum_of_subset_of_nonneg (Finset.erase_subset _ _) fun j _ _ => by positivity
    _ ≤ 2 * c := by
      rw [Finset.sum_add_distrib]
      linarith

theorem DiagonalSettled.trace_sub_le (h : DiagonalSettled tolerance A B) (k : Nat) :
    (leading n k * B.toMatrix).trace - (leading n k * A.toMatrix).trace ≤ n * tolerance := by
  have hterm (i : Fin n) : (leading n k * B.toMatrix) i i - (leading n k * A.toMatrix) i i ≤
      tolerance := by
    have hi : |B i i - A i i| < tolerance := h i
    rw [leading, Matrix.diagonal_mul, Matrix.diagonal_mul, toMatrix_apply, toMatrix_apply]
    split_ifs
    · linarith [le_abs_self (B i i - A i i)]
    · linarith [abs_nonneg (B i i - A i i)]
  calc
    (leading n k * B.toMatrix).trace - (leading n k * A.toMatrix).trace =
        ∑ i, ((leading n k * B.toMatrix) i i - (leading n k * A.toMatrix) i i) :=
      (Finset.sum_sub_distrib ..).symm
    _ ≤ ∑ _i : Fin n, tolerance := Finset.sum_le_sum fun i _ => hterm i
    _ = n * tolerance := by simp

/-- A step takes its leading trace from the span of the leading columns. -/
theorem exists_isProjection_of_swapFactors (h : A.swapFactors = .ok B) (k : Nat) :
    ∃ E, IsProjection E ∧ E * A.toMatrix * leading n k = A.toMatrix * leading n k ∧
      (E * A.toMatrix).trace = (leading n k * B.toMatrix).trace := by
  obtain ⟨q, r, hq, hr, rfl, rfl⟩ := swapFactors_eq_ok h
  have hQ : q.toMatrix.transpose * q.toMatrix = 1 := by
    rw [← toMatrix_transpose, ← toMatrix_mul, hq, toMatrix_identity]
  have hE : q.toMatrix * leading n k * q.toMatrix.transpose * (q.mul r).toMatrix =
      q.toMatrix * leading n k * r.toMatrix := by
    rw [toMatrix_mul, mul_assoc (q.toMatrix * leading n k), ← mul_assoc q.toMatrix.transpose, hQ,
      one_mul]
  refine ⟨_, (isProjection_leading k).conj hQ, ?_, ?_⟩
  · rw [hE, mul_assoc q.toMatrix, mul_assoc q.toMatrix, toMatrix_mul,
      leading_mul_mul_leading (R := r.toMatrix) hr, mul_assoc]
  · rw [hE, mul_assoc q.toMatrix, Matrix.trace_mul_comm q.toMatrix, mul_assoc, toMatrix_mul]

/-- A step that hardly moves the diagonal had little beside it to move, if the eigenvalues are
positive. -/
theorem sum_erase_sq_le_of_settled (hA : A.transpose = A) (hd : OrthogonallySimilar A (ofDiagonal d))
    (hl : 0 < l) (hld : ∀ k, l ≤ d k) (hdu : ∀ k, d k ≤ u) (hAB : A.swapFactors = .ok B)
    (hsettled : DiagonalSettled tolerance A B) (i : Fin n) :
    ∑ j ∈ Finset.univ.erase i, A i j ^ 2 ≤ 2 * (u ^ 2 * (n * tolerance) / l) := by
  have hC : A.toMatrix.transpose = A.toMatrix := by rw [← toMatrix_transpose, hA]
  have hlow := hd.posSemidef_affine (-l) 1 fun k => by linarith [hld k]
  have hhigh : (u ^ 2 • 1 + (-1 : ℝ) • (A.toMatrix * A.toMatrix)).PosSemidef := by
    rw [← toMatrix_mul]
    apply (ofDiagonal_mul_self d ▸ hd.mul_self).posSemidef_affine
    intro k
    rw [Vec.entry_ofFn]
    linarith [pow_le_pow_left₀ (hl.le.trans (hld k)) (hdu k) 2]
  apply sum_erase_sq_le hA
  intro k
  obtain ⟨E, hE, hinto, htrace⟩ := exists_isProjection_of_swapFactors hAB k
  have hblock := (isProjection_leading k).mul_trace_block_le hE hC hinto hl hlow hhigh
  rw [htrace] at hblock
  rw [le_div_iff₀ hl, mul_comm, ← trace_transpose_mul_self]
  exact hblock.trans (mul_le_mul_of_nonneg_left (hsettled.trace_sub_le k) (sq_nonneg u))

theorem exists_hasEigenvalue_near_of_settled (hA : A.transpose = A) (hl : 0 < l)
    (hbounds : ∀ x, A.HasEigenvalue x → l ≤ x ∧ x ≤ u) (hAB : A.swapFactors = .ok B)
    (hsettled : DiagonalSettled tolerance A B) (i : Fin n) :
    ∃ x, A.HasEigenvalue x ∧ |B i i - x| ≤ tolerance + u * √(2 * n * tolerance / l) := by
  obtain ⟨d, hd⟩ := exists_orthogonallySimilar_ofDiagonal hA
  have hdbounds (k : Fin n) : l ≤ d k ∧ d k ≤ u :=
    hbounds _ (hd.hasEigenvalue (hasEigenvalue_ofDiagonal d k))
  obtain ⟨x, hx, hnear⟩ := exists_hasEigenvalue_near hA i
  have hrow := sum_erase_sq_le_of_settled hA hd hl (fun k => (hdbounds k).1)
    (fun k => (hdbounds k).2) hAB hsettled i
  have hu : 0 ≤ u := hl.le.trans ((hdbounds i).1.trans (hdbounds i).2)
  have hfar : |A i i - x| ≤ u * √(2 * n * tolerance / l) := by
    rw [← Real.sqrt_sq hu, ← Real.sqrt_mul (sq_nonneg u)]
    apply Real.abs_le_sqrt
    calc
      (A i i - x) ^ 2 ≤ 2 * (u ^ 2 * (n * tolerance) / l) := hnear.trans hrow
      _ = u ^ 2 * (2 * n * tolerance / l) := by ring
  refine ⟨x, hx, ?_⟩
  have hmove : |B i i - A i i| < tolerance := hsettled i
  linarith [abs_sub_le (B i i) (A i i) x]

end Mat

namespace DenseMatrix

/-- The values of a settled run on a symmetric matrix are as near to its eigenvalues as the rows of
the last iterate are long beside the diagonal. The test that stops the run does not look there, but
if the eigenvalues are positive, it bounds what is left. -/
theorem settled_values_near_eigenvalues (A : DenseMatrix ℝ) (S : Mat ℝ A.height A.height)
    (hS : A.toSquare = .ok S) (hsymm : S.transpose = S) (options : IterationOptions ℝ)
    (values : DenseVector ℝ) (h : (A.eigenvalues options).result = .ok values) (steps : Nat)
    (hsettled : (A.eigenvalues options).events = [.settled steps]) :
    ∃ B, S.iterate steps = .ok B ∧ values = (A.ofSquare B).diagonal ∧
      (∀ i, ∃ x, S.HasEigenvalue x ∧ (B i i - x) ^ 2 ≤ ∑ j ∈ Finset.univ.erase i, B i j ^ 2) ∧
      ∀ l u, 0 < l → (∀ x, S.HasEigenvalue x → l ≤ x ∧ x ≤ u) →
        ∀ i, ∃ x, S.HasEigenvalue x ∧
          |B i i - x| ≤ options.tolerance + u * √(2 * A.height * options.tolerance / l) := by
  obtain ⟨S', v, hS', hv, rfl⟩ := eigenvalues_eq_ok_iff.mp h
  obtain rfl : S = S' := Except.ok.inj (hS.symm.trans hS')
  obtain ⟨outcome, hrun, rfl⟩ := Mat.eigenvalues_eq_ok.mp hv
  rw [events_eigenvalues_of_toSquare hS, Mat.events_eigenvalues hrun] at hsettled
  cases outcome with
  | exhausted B => simp [Outcome.event] at hsettled
  | settled steps' B =>
    obtain rfl : steps' = steps := by simpa [Outcome.event] using hsettled
    obtain ⟨k, C, hk, hC, hCB, hdiagonal⟩ := Mat.iterateFactors_eq_settled hrun
    have hB : S.iterate steps' = .ok B := by
      rw [hk, Nat.zero_add]
      exact Mat.iterate_succ_eq_ok.mpr ⟨C, hC, hCB⟩
    have hSC := Mat.iterate_orthogonallySimilar hC
    have hSB := Mat.iterate_orthogonallySimilar hB
    refine ⟨B, hB, (Mat.toArray_diagonal B).symm, ?_, ?_⟩
    · intro i
      obtain ⟨x, hx, hnear⟩ := Mat.exists_hasEigenvalue_near (hSB.transpose_eq hsymm) i
      exact ⟨x, hSB.hasEigenvalue hx, hnear⟩
    · intro l u hl hbounds i
      obtain ⟨x, hx, hnear⟩ := Mat.exists_hasEigenvalue_near_of_settled (hSC.transpose_eq hsymm) hl
        (fun x hx => hbounds x (hSC.hasEigenvalue hx)) hCB hdiagonal i
      exact ⟨x, hSC.hasEigenvalue hx, hnear⟩

/-- The first step already moves the diagonal by less than the tolerance, although the entries
beside it are far above. -/
def nearlyScalar : Mat ℚ 2 2 :=
  .ofFn ![![1 - 1 / 10 ^ 12, 2 / 10 ^ 6], ![2 / 10 ^ 6, 1 + 3 / 10 ^ 12]]

theorem hasEigenvalue_nearlyScalar {x : ℝ}
    (hx : (nearlyScalar.map (Rat.castHom ℝ)).HasEigenvalue x) : 1 / 2 ≤ x ∧ x ≤ 2 := by
  have hdet : ((nearlyScalar.map (Rat.castHom ℝ)).shift x).toMatrix.det =
      (1 - 1 / 10 ^ 12 - x) * (1 + 3 / 10 ^ 12 - x) - 2 / 10 ^ 6 * (2 / 10 ^ 6) := by
    simp [Matrix.det_fin_two, nearlyScalar]
  rw [Mat.hasEigenvalue_iff_det, hdet] at hx
  constructor
  · by_contra hlt
    nlinarith
  · by_contra hlt
    nlinarith

theorem swapFactors_nearlyScalar :
    ∃ B, (nearlyScalar.map (Rat.castHom ℝ)).swapFactors = .ok B ∧
      Mat.DiagonalSettled (1 / 10 ^ 10) (nearlyScalar.map (Rat.castHom ℝ)) B := by
  let q : Mat ℝ 2 2 := .ofFn
    ![![(10 ^ 12 - 1) / (10 ^ 12 + 1), -(2 * 10 ^ 6) / (10 ^ 12 + 1)],
      ![2 * 10 ^ 6 / (10 ^ 12 + 1), (10 ^ 12 - 1) / (10 ^ 12 + 1)]]
  let r : Mat ℝ 2 2 := .ofFn ![![1 + 1 / 10 ^ 12, 4 / 10 ^ 6], ![0, 1 - 3 / 10 ^ 12]]
  have hq : q.transpose.mul q = .identity 2 := by
    ext i j
    fin_cases i <;> fin_cases j <;> simp [q, sumFrom_eq] <;> norm_num
  have hqr : q.mul r = nearlyScalar.map (Rat.castHom ℝ) := by
    ext i j
    fin_cases i <;> fin_cases j <;> simp [q, r, nearlyScalar, sumFrom_eq] <;> norm_num
  have hbelow (a b : Fin 2) (hab : b < a) : r a b = 0 := by
    fin_cases a <;> fin_cases b <;> simp [r] at hab ⊢
  have hdiag (i : Fin 2) : 1 / 10 ^ 10 ≤ r i i := by
    fin_cases i <;> norm_num [r]
  refine ⟨r.mul q, ?_, ?_⟩
  · rw [← hqr, Mat.swapFactors_mul hq hbelow hdiag]
  · intro i
    change |_| < _
    fin_cases i <;> simp [q, r, nearlyScalar, sumFrom_eq] <;> norm_num [abs_lt]

theorem settled_nearlyScalar :
    let S := nearlyScalar.map (Rat.castHom ℝ)
    let A : DenseMatrix ℝ := ⟨2, 2, Nat.two_pos, Nat.two_pos, S⟩
    S.transpose = S ∧ (∀ x, S.HasEigenvalue x → 1 / 2 ≤ x ∧ x ≤ 2) ∧
    ∃ values B, (A.eigenvalues .standard).result = .ok values ∧
      (A.eigenvalues .standard).events = [.settled 1] ∧ S.iterate 1 = .ok B ∧
      values = (A.ofSquare B).diagonal ∧
      (∀ i, ∃ x, S.HasEigenvalue x ∧ (B i i - x) ^ 2 ≤ ∑ j ∈ Finset.univ.erase i, B i j ^ 2) ∧
      ∀ i, ∃ x, S.HasEigenvalue x ∧
        |B i i - x| ≤ 1 / 10 ^ 10 + 2 * √(2 * (2 : Nat) * (1 / 10 ^ 10) / (1 / 2)) := by
  intro S A
  have hsymm : S.transpose = S := by
    ext i j
    fin_cases i <;> fin_cases j <;> simp [S, nearlyScalar]
  have hbounds (x : ℝ) (hx : S.HasEigenvalue x) : 1 / 2 ≤ x ∧ x ≤ 2 := hasEigenvalue_nearlyScalar hx
  have hS : A.toSquare = .ok S := toSquare_mk _ _ _
  obtain ⟨C, hC, hdiagonal⟩ := swapFactors_nearlyScalar
  have hrun := Mat.iterateFactors_of_settled hC hdiagonal 999 0
  have hvalues : (A.eigenvalues .standard).result = .ok _ :=
    eigenvalues_eq_ok_iff.mpr ⟨_, _, hS, Mat.eigenvalues_eq_ok.mpr ⟨_, hrun, rfl⟩, rfl⟩
  have hevents : (A.eigenvalues .standard).events = [.settled 1] := by
    rw [events_eigenvalues_of_toSquare hS, Mat.events_eigenvalues hrun]
    rfl
  obtain ⟨B, hB, hdiag, hrow, hnear⟩ :=
    settled_values_near_eigenvalues A S hS hsymm _ _ hvalues 1 hevents
  exact ⟨hsymm, hbounds, _, B, hvalues, hevents, hB, hdiag, hrow,
    hnear (1 / 2) 2 (by norm_num) hbounds⟩

/-- It has the eigenvalues `1` and `-1`, and a diagonal of zeros. -/
def exchange : Mat ℝ 2 2 := .ofFn ![![0, 1], ![1, 0]]

/-- The run settles at once with the diagonal it began with, far from the eigenvalues. -/
theorem exchange_settles_at_zero :
    let A : DenseMatrix ℝ := ⟨2, 2, Nat.two_pos, Nat.two_pos, exchange⟩
    exchange.transpose = exchange ∧ (∀ x, exchange.HasEigenvalue x ↔ x = 1 ∨ x = -1) ∧
    (A.eigenvalues .standard).result = .ok #[0, 0] ∧
    (A.eigenvalues .standard).events = [.settled 1] ∧
    ¬∃ x, exchange.HasEigenvalue x ∧ |0 - x| ≤ 1 / 10 ^ 6 := by
  intro A
  have hsymm : exchange.transpose = exchange := by
    ext i j
    fin_cases i <;> fin_cases j <;> simp [exchange]
  have heigen (x : ℝ) : exchange.HasEigenvalue x ↔ x = 1 ∨ x = -1 := by
    have hdet : (exchange.shift x).toMatrix.det = x * x - 1 := by
      simp [Matrix.det_fin_two, exchange]
    rw [Mat.hasEigenvalue_iff_det, hdet, sub_eq_zero, mul_self_eq_one_iff]
  have hS : A.toSquare = .ok exchange := toSquare_mk _ _ _
  have horthonormal : exchange.transpose.mul exchange = .identity 2 := by
    ext i j
    fin_cases i <;> fin_cases j <;> simp [exchange, sumFrom_eq]
  have hrun := Mat.iterateFactors_of_fixed (Mat.swapFactors_of_orthonormal horthonormal)
    tolerance_pos 999 0
  refine ⟨hsymm, heigen, ?_, ?_, ?_⟩
  · exact eigenvalues_eq_ok_iff.mpr ⟨_, _, hS, Mat.eigenvalues_eq_ok.mpr ⟨_, hrun, rfl⟩, rfl⟩
  · rw [events_eigenvalues_of_toSquare hS, Mat.events_eigenvalues hrun]
    rfl
  · rintro ⟨x, hx, hnear⟩
    rcases (heigen x).mp hx with rfl | rfl <;> norm_num at hnear

end DenseMatrix

end DenseLinear
