import DenseLinear.Proofs.Diagonalization

/-!
# Eigenvalues of symmetric matrices

A symmetric matrix is orthogonally similar to the diagonal matrix of its eigenvalues. So a bound on
the eigenvalues bounds the quadratic form, and each diagonal entry is as near to an eigenvalue as
the rest of its row is long.
-/

namespace DenseLinear.Mat

variable {n : Nat} {A B : Mat ℝ n n} {d : Vec ℝ n}

def HasEigenvalue (A : Mat ℝ n n) (x : ℝ) : Prop :=
  ∃ v : Vec ℝ n, v ≠ .replicate n 0 ∧ A.mulVec v = v.scale x

theorem hasEigenvalue_iff_det {x : ℝ} : A.HasEigenvalue x ↔ (A.shift x).toMatrix.det = 0 := by
  have hzero : (0 : Fin n → ℝ) = (Vec.replicate n 0).entry := by
    funext i
    simp
  have hinj {v w : Vec ℝ n} (h : v.entry = w.entry) : v = w := Vec.ext (congrFun h)
  rw [← Matrix.exists_mulVec_eq_zero_iff]
  constructor
  · rintro ⟨v, hv, hAv⟩
    refine ⟨v.entry, fun h => hv (hinj (h.trans hzero)), ?_⟩
    rw [toMatrix_mulVec, mulVec_shift_eq_zero_iff.mpr hAv, hzero]
  · rintro ⟨v, hv, hAv⟩
    have hof : (Vec.ofFn v).entry = v := funext fun i => Vec.entry_ofFn v i
    refine ⟨.ofFn v, fun h => hv (by rw [← hof, h, hzero]), ?_⟩
    rw [← mulVec_shift_eq_zero_iff]
    apply hinj
    rw [← toMatrix_mulVec, hof, hAv, hzero]

theorem mulVec_scale (A : Mat ℝ n n) (x : ℝ) (v : Vec ℝ n) :
    A.mulVec (v.scale x) = (A.mulVec v).scale x := by
  ext i
  simp only [mulVec_entry, Vec.scale_apply, Finset.sum_mul, mul_assoc]

theorem hasEigenvalue_ofDiagonal (d : Vec ℝ n) (k : Fin n) : (ofDiagonal d).HasEigenvalue (d k) := by
  refine ⟨(Vec.replicate n 0).set k 1, ?_, ?_⟩
  · intro hzero
    have hk := congrArg (Vec.entry · k) hzero
    simp [Vec.set_apply] at hk
  · ext i
    rw [ofDiagonal_mulVec_apply]
    by_cases h : i = k <;> simp [Vec.set_apply, h]

theorem toMatrix_ofDiagonal (d : Vec ℝ n) : (ofDiagonal d).toMatrix = Matrix.diagonal d.entry := by
  ext i j
  simp [Matrix.diagonal_apply]

theorem toMatrix_shift (A : Mat ℝ n n) (x : ℝ) : (A.shift x).toMatrix = A.toMatrix - x • 1 := by
  ext i j
  rcases eq_or_ne i j with rfl | h
  · simp
  · simp [h]

theorem orthogonallySimilar_iff :
    OrthogonallySimilar A B ↔ ∃ Q : Matrix (Fin n) (Fin n) ℝ,
      Q.transpose * Q = 1 ∧ B.toMatrix = Q.transpose * A.toMatrix * Q := by
  constructor
  · rintro ⟨Q, hQ, rfl⟩
    refine ⟨Q.toMatrix, ?_, ?_⟩
    · rw [← toMatrix_transpose, ← toMatrix_mul, hQ, toMatrix_identity]
    · rw [toMatrix_mul, toMatrix_mul, toMatrix_transpose]
  · rintro ⟨Q, hQ, hB⟩
    have hof : (ofFn fun i j => Q i j : Mat ℝ n n).toMatrix = Q := by
      ext i j
      simp
    refine ⟨ofFn fun i j => Q i j, ?_, ?_⟩
    · apply toMatrix_inj.mp
      rw [toMatrix_mul, toMatrix_transpose, hof, hQ, toMatrix_identity]
    · apply toMatrix_inj.mp
      rw [toMatrix_mul, toMatrix_mul, toMatrix_transpose, hof, hB]

/-- The spectral theorem for stored matrices. -/
theorem exists_orthogonallySimilar_ofDiagonal (h : A.transpose = A) :
    ∃ d, OrthogonallySimilar A (ofDiagonal d) := by
  have hA : A.toMatrix.IsHermitian := by
    rw [Matrix.IsHermitian, Matrix.conjTranspose_eq_transpose_of_trivial, ← toMatrix_transpose, h]
  have hU := Matrix.mem_unitaryGroup_iff'.mp hA.eigenvectorUnitary.2
  have hdiag := hA.conjStarAlgAut_star_eigenvectorUnitary
  rw [Matrix.star_eq_conjTranspose, Matrix.conjTranspose_eq_transpose_of_trivial] at hU
  rw [Unitary.conjStarAlgAut_star_apply, Matrix.star_eq_conjTranspose,
    Matrix.conjTranspose_eq_transpose_of_trivial] at hdiag
  refine ⟨.ofFn hA.eigenvalues,
    orthogonallySimilar_iff.mpr ⟨hA.eigenvectorUnitary, hU, ?_⟩⟩
  rw [hdiag, toMatrix_ofDiagonal]
  congr 1
  funext i
  simp

namespace OrthogonallySimilar

theorem shift (h : OrthogonallySimilar A B) (x : ℝ) :
    OrthogonallySimilar (A.shift x) (B.shift x) := by
  obtain ⟨Q, hQ, hB⟩ := orthogonallySimilar_iff.mp h
  refine orthogonallySimilar_iff.mpr ⟨Q, hQ, ?_⟩
  rw [toMatrix_shift, toMatrix_shift, hB, Matrix.mul_sub, Matrix.sub_mul, Matrix.mul_smul,
    Matrix.mul_one, Matrix.smul_mul, hQ]

theorem mul_self (h : OrthogonallySimilar A B) : OrthogonallySimilar (A.mul A) (B.mul B) := by
  obtain ⟨Q, hQ, rfl⟩ := h
  have hQ' : Q.mul Q.transpose = identity n := mul_eq_identity_comm.mp hQ
  refine ⟨Q, hQ, ?_⟩
  rw [mul_mul, ← mul_mul Q, ← mul_mul Q, hQ', identity_mul, mul_mul, mul_mul, mul_mul]

theorem hasEigenvalue (h : OrthogonallySimilar A B) {x : ℝ} (hx : B.HasEigenvalue x) :
    A.HasEigenvalue x := by
  obtain ⟨Q, hQ, rfl⟩ := h
  obtain ⟨v, hv, hBv⟩ := hx
  have hQ' : Q.mul Q.transpose = identity n := mul_eq_identity_comm.mp hQ
  refine ⟨Q.mulVec v, ?_, ?_⟩
  · intro hzero
    apply hv
    rw [← identity_mulVec v, ← hQ, mul_mulVec, hzero, mulVec_zero]
  · rw [← mulVec_scale, ← hBv, ← mul_mulVec Q, ← mul_mul, ← mul_mul, hQ', identity_mul, mul_mulVec]

/-- An affine function that is not negative at the eigenvalues makes the matrix positive
semidefinite. -/
theorem posSemidef_affine (h : OrthogonallySimilar A (ofDiagonal d)) (a b : ℝ)
    (hd : ∀ k, 0 ≤ a + b * d k) : (a • 1 + b • A.toMatrix).PosSemidef := by
  obtain ⟨Q, hQ, hA⟩ := orthogonallySimilar_iff.mp h.symm
  have hdiag : (Matrix.diagonal fun k => a + b * d k).PosSemidef :=
    Matrix.posSemidef_diagonal_iff.mpr hd
  have hsplit : Matrix.diagonal (fun k => a + b * d k) = a • 1 + b • Matrix.diagonal d.entry := by
    rw [← Matrix.diagonal_one, ← Matrix.diagonal_smul, ← Matrix.diagonal_smul, Matrix.diagonal_add]
    simp
  have hconj := hdiag.conjTranspose_mul_mul_same Q
  rwa [hsplit, Matrix.conjTranspose_eq_transpose_of_trivial, Matrix.mul_add, Matrix.add_mul,
    Matrix.mul_smul, Matrix.mul_one, Matrix.smul_mul, hQ, Matrix.mul_smul, Matrix.smul_mul,
    ← toMatrix_ofDiagonal, ← hA] at hconj

end OrthogonallySimilar

theorem shift_ofDiagonal (d : Vec ℝ n) (x : ℝ) :
    (ofDiagonal d).shift x = ofDiagonal (.ofFn fun k => d k - x) := by
  ext i j
  by_cases h : i = j <;> simp [h]

theorem ofDiagonal_mul_self (d : Vec ℝ n) :
    (ofDiagonal d).mul (ofDiagonal d) = ofDiagonal (.ofFn fun k => d k ^ 2) := by
  apply toMatrix_inj.mp
  rw [toMatrix_mul, toMatrix_ofDiagonal, toMatrix_ofDiagonal, Matrix.diagonal_mul_diagonal]
  congr 1
  funext k
  rw [Vec.entry_ofFn, sq]

/-- Each diagonal entry of a symmetric matrix is as near to an eigenvalue as the rest of its row is
long. -/
theorem exists_hasEigenvalue_near (h : A.transpose = A) (i : Fin n) :
    ∃ x, A.HasEigenvalue x ∧ (A i i - x) ^ 2 ≤ ∑ j ∈ Finset.univ.erase i, A i j ^ 2 := by
  obtain ⟨d, hd⟩ := exists_orthogonallySimilar_ofDiagonal h
  have : Nonempty (Fin n) := ⟨i⟩
  obtain ⟨k, hk⟩ := Finite.exists_min fun k => (d k - A i i) ^ 2
  refine ⟨d k, hd.hasEigenvalue (hasEigenvalue_ofDiagonal d k), ?_⟩
  have hsq := (hd.shift (A i i)).mul_self
  rw [shift_ofDiagonal, ofDiagonal_mul_self] at hsq
  have hpos := hsq.posSemidef_affine (-(d k - A i i) ^ 2) 1 fun j => by
    rw [Vec.entry_ofFn, Vec.entry_ofFn]
    linarith [hk j]
  have hii := hpos.diag_nonneg (i := i)
  have hsymm (a b : Fin n) : A a b = A b a := by
    conv_lhs => rw [← h, transpose_apply]
  have hrow : ((A.shift (A i i)).mul (A.shift (A i i))) i i =
      ∑ j ∈ Finset.univ.erase i, A i j ^ 2 := by
    rw [mul_entry, ← Finset.add_sum_erase _ _ (Finset.mem_univ i)]
    simp only [shift_apply, if_true, sub_self, zero_mul, zero_add]
    apply Finset.sum_congr rfl
    intro j hj
    have hji := Finset.ne_of_mem_erase hj
    rw [if_neg hji.symm, if_neg hji, hsymm j i, sq]
  rw [Matrix.add_apply, Matrix.smul_apply, Matrix.smul_apply, Matrix.one_apply_eq, toMatrix_apply,
    hrow, smul_eq_mul, mul_one, one_smul] at hii
  linarith [sub_sq_comm (A i i) (d k)]

end DenseLinear.Mat
