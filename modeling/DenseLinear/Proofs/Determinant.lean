import DenseLinear.Proofs.Singularity
import DenseLinear.Proofs.Triangular

/-!
# The determinant

An exchange of rows changes the sign of the determinant, taking multiples of a row from others does
not change it. So elimination keeps the signed product of its pivots in proportion to the
determinant of what is left; at the end a triangular matrix is left, whose determinant is the
product of the pivots. The triangular factors lead to the same number without exchanges.
-/

namespace DenseLinear

theorem product_eq {K : Type} [Field K] [LinearOrder K] {n : Nat} (f : Fin n → K) :
    product f = ∏ i, f i := by
  unfold product
  induction n with
  | zero => simp
  | succ n ih => rw [Fin.foldl_succ_last, ih, Fin.prod_univ_castSucc]

namespace Mat

section

variable {K : Type} [Field K] {n : Nat}

theorem det_swapRows (A : Mat K n n) {a b : Fin n} (hab : a ≠ b) :
    (A.swapRows a b).toMatrix.det = -A.toMatrix.det := by
  have hswap : (A.swapRows a b).toMatrix = A.toMatrix.submatrix (Equiv.swap a b) id := by
    ext i j
    exact swapRows_eq_swap A a b i j
  rw [hswap, Matrix.det_permute, Equiv.Perm.sign_swap hab]
  norm_num

theorem det_eliminate (A : Mat K n n) {source : Fin n} {target : Fin n → Prop}
    [DecidablePred target] (hs : ¬target source) (factor : Fin n → K) :
    (A.eliminate source target factor).toMatrix.det = A.toMatrix.det := by
  refine Matrix.det_eq_of_forall_row_eq_smul_add_const
    (fun r => if target r then -factor r else 0) source (if_neg hs) ?_
  intro r j
  simp only [toMatrix_apply, eliminate_apply]
  split_ifs <;> ring

def leadingProduct (A : Mat K n n) (k : Nat) : K := ∏ j with j.val < k, A j j

theorem leadingProduct_zero (A : Mat K n n) : A.leadingProduct 0 = 1 := by
  simp [leadingProduct]

theorem leadingProduct_succ {A B : Mat K n n} (i : Fin n) (h : ∀ j < i, B j j = A j j) :
    B.leadingProduct (i + 1) = B i i * A.leadingProduct i := by
  have hsplit : (Finset.univ.filter fun j : Fin n => j.val < i + 1) =
      insert i (Finset.univ.filter fun j : Fin n => j.val < i) := by
    ext j
    simp only [Finset.mem_filter, Finset.mem_univ, true_and, Finset.mem_insert, Fin.ext_iff]
    omega
  unfold leadingProduct
  rw [hsplit, Finset.prod_insert (by simp)]
  congr 1
  apply Finset.prod_congr rfl
  intro j hj
  exact h j (Finset.mem_filter.mp hj).2

theorem leadingProduct_self (A : Mat K n n) : A.leadingProduct n = ∏ j, A j j := by
  simp [leadingProduct]

end

variable {K : Type} [Field K] [LinearOrder K] {n : Nat} {A : Mat K n n}

/-- The first `k` columns are cleared below the diagonal and have pivots on it, and the product so
far is to the determinant of `A` as the product of these pivots is to that of the matrix left. -/
structure EliminatedUpTo (A : Mat K n n) (k : Nat) (s : Elimination K n) : Prop where
  below : ∀ r c : Fin n, c.val < k → c < r → s.matrix r c = 0
  pivot : ∀ j : Fin n, j.val < k → s.matrix j j ≠ 0
  proportion : s.det * s.matrix.toMatrix.det = s.matrix.leadingProduct k * A.toMatrix.det

theorem exchange_det_mul_det (s : Elimination K n) (i r : Fin n) :
    (s.exchange i r).det * (s.exchange i r).matrix.toMatrix.det =
      s.det * s.matrix.toMatrix.det := by
  unfold Elimination.exchange
  split_ifs with h
  · rfl
  · rw [det_swapRows _ (Ne.symm h), neg_mul_neg]

theorem eliminationStep_refused_iff {i : Fin n} {s : Elimination K n} :
    (∃ e, eliminationStep i s = .error e) ↔
      |s.matrix (s.matrix.largestRow i i) i| < 1 / 10 ^ 10 := by
  rw [← negligible_iff, eliminationStep_eq rfl]
  split_ifs with h <;> simp [h]

theorem elimination_eq_error_iff : (∃ e, A.elimination = .error e) ↔
    ∃ (i : Fin n) (s : Elimination K n), A.eliminationUpTo i i.isLt.le = .ok s ∧
      |s.matrix (s.matrix.largestRow i i) i| < 1 / 10 ^ 10 := by
  constructor
  · rintro ⟨e, he⟩
    obtain ⟨i, s, _, hs, hstep⟩ := tryAfterSteps_eq_error he
    exact ⟨i, s, hs, eliminationStep_refused_iff.mp ⟨e, hstep⟩⟩
  · rintro ⟨i, s, hs, hsmall⟩
    obtain ⟨e, he⟩ := eliminationStep_refused_iff.mpr hsmall
    exact ⟨e, tryAfterSteps_error_of_step hs he i.isLt⟩

theorem det_of_elimination_error {e : Stall K} (h : A.elimination = .error e) : A.det = 0 := by
  unfold det
  rw [h]

variable [IsStrictOrderedRing K]

theorem EliminatedUpTo.step {i : Fin n} {s t : Elimination K n} (hs : EliminatedUpTo A i s)
    (ht : eliminationStep i s = .ok t) : EliminatedUpTo A (i + 1) t := by
  have hir := s.matrix.le_largestRow i i
  rw [eliminationStep_eq rfl] at ht
  split_ifs at ht with hn
  cases ht
  have hp := ne_zero_of_not_negligible hn
  generalize s.matrix.largestRow i i = r at hir hp
  have habove (p c : Fin n) (hpi : p < i) : (s.matrix.swapRows i r) p c = s.matrix p c := by
    rw [swapRows_apply, if_neg hpi.ne, if_neg (hpi.trans_le hir).ne]
  have hcleared (p c : Fin n) (hip : i ≤ p) (hci : c < i) : (s.matrix.swapRows i r) p c = 0 := by
    have hi := hs.below i c hci hci
    have hr := hs.below r c hci (hci.trans_le hir)
    have hpc := hs.below p c hci (hci.trans_le hip)
    rw [swapRows_apply, hi, hr, hpc]
    split_ifs <;> rfl
  refine ⟨?_, ?_, ?_⟩
  · intro p c hc hcp
    rw [eliminate_apply]
    rcases lt_or_eq_of_lt_succ hc with hci | rfl
    · rw [hcleared i c le_rfl hci, mul_zero, sub_zero, ite_self]
      rcases lt_or_ge p i with hpi | hip
      · rw [habove p c hpi]
        exact hs.below p c hci hcp
      · exact hcleared p c hip hci
    · rw [if_pos hcp, swapRows_apply_left, div_mul_cancel₀ _ hp, sub_self]
  · intro j hj
    rw [eliminate_apply]
    rcases lt_or_eq_of_lt_succ hj with hji | rfl
    · rw [if_neg hji.not_gt, habove j j hji]
      exact hs.pivot j hji
    · rw [if_neg (lt_irrefl j), swapRows_apply_left]
      exact hp
  · have hdiag (j : Fin n) (hj : j < i) : ((s.matrix.swapRows i r).eliminate i (i < ·)
        fun p => (s.matrix.swapRows i r) p i / s.matrix r i) j j = s.matrix j j := by
      rw [eliminate_apply, if_neg hj.not_gt, habove j j hj]
    have hexchange := exchange_det_mul_det s i r
    rw [exchange_matrix] at hexchange
    rw [leadingProduct_succ i hdiag, det_eliminate _ (lt_irrefl i), eliminate_apply,
      if_neg (lt_irrefl i), swapRows_apply_left, mul_right_comm, hexchange, hs.proportion]
    ring

theorem eliminationUpTo_eliminated {k : Nat} {h : k ≤ n} {s : Elimination K n}
    (e : A.eliminationUpTo k h = .ok s) : EliminatedUpTo A k s := by
  refine tryAfterSteps_induction (fun k s => EliminatedUpTo A k s) ?_ ?_ e
  · refine ⟨fun _ c hc => absurd hc (Nat.not_lt_zero c), fun j hj => absurd hj (Nat.not_lt_zero j),
      ?_⟩
    rw [leadingProduct_zero]
  · intro i s t hs ht
    exact hs.step ht

theorem EliminatedUpTo.det_eq {s : Elimination K n} (hs : EliminatedUpTo A n s) :
    s.det = A.toMatrix.det := by
  have htriangular : s.matrix.toMatrix.IsUpperTriangular := fun r c hcr => hs.below r c c.isLt hcr
  have hdet : s.matrix.toMatrix.det = s.matrix.leadingProduct n := by
    rw [Matrix.det_of_isUpperTriangular htriangular, leadingProduct_self]
    rfl
  have hne : s.matrix.leadingProduct n ≠ 0 := by
    rw [leadingProduct_self]
    exact Finset.prod_ne_zero_iff.mpr fun j _ => hs.pivot j j.isLt
  have h := hs.proportion
  rw [hdet, mul_comm] at h
  exact mul_left_cancel₀ hne h

theorem det_of_elimination_ok {s : Elimination K n} (h : A.elimination = .ok s) :
    A.det = A.toMatrix.det := by
  unfold det
  rw [h]
  exact (eliminationUpTo_eliminated h).det_eq

theorem det_eq_or_eq_zero (A : Mat K n n) : A.det = A.toMatrix.det ∨ A.det = 0 := by
  cases h : A.elimination with
  | ok s => exact .inl (det_of_elimination_ok h)
  | error e => exact .inr (det_of_elimination_error h)

end Mat

theorem LU.FactorsUpTo.det_eq {K : Type} [Field K] [LinearOrder K] {n : Nat} {A : Mat K n n}
    {f : LU K n} (hf : f.FactorsUpTo A n) : f.det = A.toMatrix.det := by
  have hlower : f.lower.toMatrix.IsLowerTriangular := fun r c hrc => hf.above r c hrc
  have hupper : f.upper.toMatrix.IsUpperTriangular := fun r c hcr => hf.below r c hcr
  have hone : ∏ i, f.lower.toMatrix i i = 1 :=
    Finset.prod_eq_one fun i _ => hf.diagonal i i.isLt
  rw [← hf.mul_eq, Mat.toMatrix_mul, Matrix.det_mul, Matrix.det_of_isLowerTriangular _ hlower,
    Matrix.det_of_isUpperTriangular hupper, hone, one_mul, LU.det, product_eq]
  rfl

namespace DenseMatrix

variable {K : Type} [Field K] [LinearOrder K] [IsStrictOrderedRing K]

/-- The computed determinant is the determinant if every chosen pivot has the tolerance at least as
its magnitude, and zero otherwise; it is zero for every singular matrix. The triangular factors,
where there are any, give the determinant as well. -/
theorem det_eq_determinant_or_zero (A : DenseMatrix K) (S : Mat K A.height A.height)
    (hS : A.toSquare = .ok S) :
    ((∀ (i : Fin A.height) (s : Elimination K A.height), S.eliminationUpTo i i.isLt.le = .ok s →
        1 / 10 ^ 10 ≤ |s.matrix (s.matrix.largestRow i i) i|) →
      A.det.result = .ok S.toMatrix.det) ∧
    ((∃ (i : Fin A.height) (s : Elimination K A.height), S.eliminationUpTo i i.isLt.le = .ok s ∧
        |s.matrix (s.matrix.largestRow i i) i| < 1 / 10 ^ 10) →
      A.det.result = .ok 0) ∧
    (¬IsUnit S.toMatrix → A.det.result = .ok 0) ∧
    ∀ f, A.lu = .ok f → f.det = S.toMatrix.det ∧
      (A.det.result ≠ .ok 0 → A.det.result = .ok f.det) := by
  have hresult : A.det.result = .ok S.det := by
    simp only [det, Traced.result_bind, Traced.result_lift, hS]
    rfl
  rw [hresult]
  refine ⟨?_, ?_, ?_, ?_⟩
  · intro hpivots
    cases h : S.elimination with
    | ok s => exact congrArg _ (Mat.det_of_elimination_ok h)
    | error e =>
      obtain ⟨i, s, hs, hsmall⟩ := Mat.elimination_eq_error_iff.mp ⟨e, h⟩
      exact absurd (hpivots i s hs) (not_le.mpr hsmall)
  · intro hstalled
    obtain ⟨e, h⟩ := Mat.elimination_eq_error_iff.mpr hstalled
    exact congrArg _ (Mat.det_of_elimination_error h)
  · intro hsingular
    have hzero : S.toMatrix.det = 0 := by
      rwa [Matrix.isUnit_iff_isUnit_det, isUnit_iff_ne_zero, not_not] at hsingular
    rcases S.det_eq_or_eq_zero with h | h
    · exact congrArg _ (h.trans hzero)
    · exact congrArg _ h
  · intro f hf
    obtain ⟨S', hS', hlu⟩ := lu_eq_ok_iff.mp hf
    obtain rfl : S = S' := Except.ok.inj (hS.symm.trans hS')
    have hfactors : f.det = S.toMatrix.det := (LU.upTo_factors hlu).det_eq
    refine ⟨hfactors, ?_⟩
    intro hne
    rcases S.det_eq_or_eq_zero with h | h
    · exact congrArg _ (h.trans hfactors.symm)
    · exact absurd (congrArg _ h) hne

/-- Invertible, but its second pivot is too small. -/
def shallow : Mat ℚ 2 2 := .ofFn ![![2, 1], ![2, 1 + 1 / (2 * 10 ^ 10)]]

theorem det_stacked_shallow :
    let A : DenseMatrix ℚ := ⟨3, 3, Nat.succ_pos 2, Nat.succ_pos 2, stacked⟩
    let B : DenseMatrix ℚ := ⟨2, 2, Nat.two_pos, Nat.two_pos, shallow⟩
    A.toSquare = .ok stacked ∧
    (∀ (i : Fin 3) (s : Elimination ℚ 3), stacked.eliminationUpTo i i.isLt.le = .ok s →
      1 / 10 ^ 10 ≤ |s.matrix (s.matrix.largestRow i i) i|) ∧
    A.det.result = .ok stacked.toMatrix.det ∧ A.det.result = .ok 4 ∧
    (∃ f, A.lu = .ok f ∧ f.det = stacked.toMatrix.det ∧ A.det.result = .ok f.det) ∧
    (∃ (i : Fin 2) (s : Elimination ℚ 2), shallow.eliminationUpTo i i.isLt.le = .ok s ∧
      |s.matrix (s.matrix.largestRow i i) i| < 1 / 10 ^ 10) ∧
    B.det.result = .ok 0 := by
  intro A B
  have hA : A.toSquare = .ok stacked := toSquare_mk _ _ _
  have hok : stacked.elimination.isOk ∧ shallow.elimination.isOk = false ∧ stacked.lu.isOk := by
    decide +kernel
  have hfour : A.det.result = .ok 4 := by
    have h : stacked.det = 4 := by decide +kernel
    rw [det_mk, h]
  have hpivots (i : Fin 3) (s : Elimination ℚ 3) (hs : stacked.eliminationUpTo i i.isLt.le = .ok s) :
      1 / 10 ^ 10 ≤ |s.matrix (s.matrix.largestRow i i) i| := by
    by_contra hsmall
    obtain ⟨e, he⟩ := Mat.elimination_eq_error_iff.mpr ⟨i, s, hs, not_le.mp hsmall⟩
    rw [he] at hok
    exact Bool.noConfusion hok.1
  have hstall : ∃ e, shallow.elimination = .error e := by
    cases h : shallow.elimination with
    | error e => exact ⟨e, rfl⟩
    | ok s =>
      rw [h] at hok
      exact Bool.noConfusion hok.2.1
  obtain ⟨f, hf⟩ := exists_eq_ok_of_isOk hok.2.2
  have hlu : A.lu = .ok f := lu_eq_ok_iff.mpr ⟨stacked, hA, hf⟩
  obtain ⟨hdet, _, _, hfactors⟩ := det_eq_determinant_or_zero A stacked hA
  obtain ⟨_, hzero, _, _⟩ := det_eq_determinant_or_zero B shallow (toSquare_mk _ _ _)
  obtain ⟨hfdet, hagree⟩ := hfactors f hlu
  have hne : A.det.result ≠ .ok 0 := by
    rw [hfour]
    decide
  have hstalled := Mat.elimination_eq_error_iff.mp hstall
  exact ⟨hA, hpivots, hdet hpivots, hfour, ⟨f, hlu, hfdet, hagree hne⟩, hstalled, hzero hstalled⟩

end DenseMatrix

end DenseLinear
