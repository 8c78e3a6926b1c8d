import DenseLinear.Proofs.Determinant
import DenseLinear.Proofs.DiagonalDominance
import DenseLinear.Proofs.SingularityTests
import DenseLinear.Proofs.SpanDistance

/-!
# Elimination of dominant matrices

Exchanges of rows destroy diagonal dominance, so what it says of the later pivots has to come from
the matrix at the start. Pivot steps only exchange the entries of a product that is zero in the rows
already done. For a suitable vector, the others are those of the next column; and the product of the
matrix at the start with that vector has a large entry, where the largest entry of the vector meets a
dominant row. So no elimination meets a column without a pivot, and in the same way each column is
far from the span of those before it.
-/

namespace DenseLinear

namespace Mat

section

variable {K : Type} [Field K] [LinearOrder K] {m n : Nat} {A B : Mat K n n} {i : Fin n}

/-- If a pivot step leaves zero in its own row of a product, it exchanges entries of the product and
does nothing else. -/
theorem mulVec_pivotOn_of_zero {B : Mat K m n} {i r : Fin m} {c : Fin n} (hne : B r c ≠ 0)
    {x : Vec K n} (h : ((B.pivotOn i r c).mulVec x) i = 0) (p : Fin m) :
    ((B.pivotOn i r c).mulVec x) p = (B.mulVec x) (Equiv.swap i r p) := by
  have hrow : (B.mulVec x) r = 0 := by
    have hdiv : ((B.pivotOn i r c).mulVec x) i = (B.mulVec x) r / B r c := by
      simp only [mulVec_entry, pivotOn_apply, if_true, Finset.sum_div, div_mul_eq_mul_div]
    rw [hdiv, div_eq_zero_iff] at h
    exact h.resolve_right hne
  rcases eq_or_ne p i with rfl | hp
  · rw [h, Equiv.swap_apply_left, hrow]
  · have hsub : ((B.pivotOn i r c).mulVec x) p = (B.mulVec x) (Equiv.swap i r p) -
        B (Equiv.swap i r p) c / B r c * (B.mulVec x) r := by
      simp only [mulVec_entry, pivotOn_apply, if_neg hp, swapRows_eq_swap, Finset.mul_sum,
        ← Finset.sum_sub_distrib]
      apply Finset.sum_congr rfl
      intro j _
      ring
    rw [hsub, hrow, mul_zero, sub_zero]

/-- What pivot steps in the first `k` columns make of `A`: these are unit columns, and a product that
is zero in the first `k` rows has only been exchanged. -/
structure ClearedUpTo (A : Mat K n n) (k : Nat) (B : Mat K n n) : Prop where
  unit : ∀ j : Fin n, j.val < k → ∀ p, B p j = if p = j then 1 else 0
  exchanged : ∀ x, (∀ p : Fin n, p.val < k → (B.mulVec x) p = 0) →
    ∀ p, ∃ q, (A.mulVec x) p = (B.mulVec x) q

theorem clearedUpTo_zero (A : Mat K n n) : ClearedUpTo A 0 A :=
  ⟨fun _ hj => absurd hj (Nat.not_lt_zero _), fun _ _ p => ⟨p, rfl⟩⟩

theorem ClearedUpTo.pivotOn (h : ClearedUpTo A i B) {r : Fin n} (hir : i ≤ r) (hne : B r i ≠ 0) :
    ClearedUpTo A (i + 1) (B.pivotOn i r i) := by
  refine ⟨unit_pivotOn h.unit hir hne, ?_⟩
  intro x hx p
  have hswap := mulVec_pivotOn_of_zero hne (hx i (Nat.lt_succ_self _))
  have hbefore (p : Fin n) (hp : p.val < i) : (B.mulVec x) p = 0 := by
    have hpi : p < i := hp
    rw [← hx p (Nat.lt_succ_of_lt hp), hswap,
      Equiv.swap_apply_of_ne_of_ne hpi.ne (hpi.trans_le hir).ne]
  obtain ⟨q, hq⟩ := h.exchanged x hbefore p
  exact ⟨Equiv.swap i r q, by rw [hswap, Equiv.swap_apply_self, hq]⟩

end

variable {K : Type} [Field K] [LinearOrder K] [IsStrictOrderedRing K] {n : Nat} {A B : Mat K n n}
  {i : Fin n}

/-- The largest entry of `x` meets a dominant row. -/
theorem exists_excess_mul_le (hA : ∀ k, 0 ≤ A.excess k) (x : Vec K n) (j : Fin n) :
    ∃ k, A.excess k * |x j| ≤ |(A.mulVec x) k| := by
  obtain ⟨k, -, hk⟩ := Finset.exists_max_image Finset.univ (fun k => |x k|) ⟨j, Finset.mem_univ j⟩
  refine ⟨k, ?_⟩
  have hothers : |∑ l ∈ Finset.univ.erase k, A k l * x l| ≤
      (∑ l ∈ Finset.univ.erase k, |A k l|) * |x k| :=
    calc |∑ l ∈ Finset.univ.erase k, A k l * x l|
        ≤ ∑ l ∈ Finset.univ.erase k, |A k l * x l| := Finset.abs_sum_le_sum_abs _ _
      _ ≤ ∑ l ∈ Finset.univ.erase k, |A k l| * |x k| := by
        apply Finset.sum_le_sum
        intro l hl
        rw [abs_mul]
        exact mul_le_mul_of_nonneg_left (hk l (Finset.mem_univ l)) (abs_nonneg _)
      _ = (∑ l ∈ Finset.univ.erase k, |A k l|) * |x k| := (Finset.sum_mul _ _ _).symm
  calc A.excess k * |x j|
      ≤ A.excess k * |x k| := mul_le_mul_of_nonneg_left (hk j (Finset.mem_univ j)) (hA k)
    _ = |A k k * x k| - (∑ l ∈ Finset.univ.erase k, |A k l|) * |x k| := by
      rw [excess, sub_mul, abs_mul]
    _ ≤ |A k k * x k| - |∑ l ∈ Finset.univ.erase k, A k l * x l| := sub_le_sub_left hothers _
    _ ≤ |A k k * x k + ∑ l ∈ Finset.univ.erase k, A k l * x l| := by
      have h := abs_sub_abs_le_abs_sub (A k k * x k) (-∑ l ∈ Finset.univ.erase k, A k l * x l)
      rwa [abs_neg, sub_neg_eq_add] at h
    _ = |(A.mulVec x) k| := by
      rw [mulVec_entry, Finset.add_sum_erase _ (fun l => A k l * x l) (Finset.mem_univ k)]

/-- The next column has a candidate as large as the excess of some row of the matrix at the start. -/
theorem ClearedUpTo.exists_candidate (h : ClearedUpTo A i B) (hA : ∀ k, 0 < A.excess k) :
    ∃ k r, i ≤ r ∧ A.excess k ≤ |B r i| := by
  have hprod := mulVec_stalledSolution_apply h.unit
  obtain ⟨k, hk⟩ := exists_excess_mul_le (fun k => (hA k).le) (B.stalledSolution i) i
  obtain ⟨r, hr⟩ := h.exchanged (B.stalledSolution i) (fun p hp => (hprod p).trans (if_pos hp)) k
  have hone : (B.stalledSolution i) i = 1 := by simp [stalledSolution]
  rw [hone, abs_one, mul_one, hr, hprod] at hk
  split_ifs at hk with hri
  · rw [abs_zero] at hk
    exact absurd (hA k) hk.not_gt
  · exact ⟨k, r, not_lt.mp hri, hk⟩

theorem ClearedUpTo.exists_significant (h : ClearedUpTo A i B)
    (hA : ∀ k, 1 / 10 ^ 10 < A.excess k) : ∃ r, i ≤ r ∧ Significant (B r i) := by
  obtain ⟨k, r, hr, hk⟩ := h.exists_candidate fun k => tolerance_pos.trans (hA k)
  exact ⟨r, hr, (hA k).trans_le hk⟩

theorem inversionUpTo_cleared {k : Nat} {h : k ≤ n} {s : Augmented K n}
    (e : A.inversionUpTo k h = .ok s) : ClearedUpTo A k s.left := by
  refine tryAfterSteps_induction (fun k s => ClearedUpTo A k s.left) (clearedUpTo_zero A) ?_ e
  intro i s t hs ht
  obtain ⟨r, hir, hne, hl, _⟩ := inversionStep_eq_ok ht
  rw [hl]
  exact hs.pivotOn hir hne

theorem inverse_ne_none_of_dominant (hA : ∀ k, 1 / 10 ^ 10 < A.excess k) : A.inverse ≠ none := by
  intro hnone
  obtain ⟨i, s, hs, hsmall⟩ := inverse_eq_none_iff.mp hnone
  obtain ⟨r, hr, hsig⟩ := (inversionUpTo_cleared hs).exists_significant hA
  exact (hsmall r hr).not_gt hsig

/-- No column is left out, so the cursor is always at the current column. -/
theorem reductionUpTo_of_dominant (hA : ∀ k, 1 / 10 ^ 10 < A.excess k) (k : Nat) (h : k ≤ n) :
    (A.reductionUpTo k h).cursor = k ∧ ClearedUpTo A k (A.reductionUpTo k h).matrix := by
  refine afterSteps_induction
    (fun k (s : Reduction K n n) => s.cursor = k ∧ ClearedUpTo A k s.matrix)
    ⟨rfl, clearedUpTo_zero A⟩ ?_ k h
  rintro c s ⟨hcursor, hs⟩
  rcases reduceColumn_cases c s with ⟨_, hnone⟩ | ⟨hlt, r, hr, hsig, he⟩
  · obtain ⟨r, hr, hsig⟩ := hs.exists_significant hA
    exact absurd hsig (hnone r (hcursor.trans_le hr))
  · obtain rfl : (⟨s.cursor, hlt⟩ : Fin n) = c := Fin.ext hcursor
    rw [he]
    exact ⟨by simp [Reduction.cursor], hs.pivotOn hr (ne_zero_of_significant hsig)⟩

theorem rank_of_dominant (hA : ∀ k, 1 / 10 ^ 10 < A.excess k) : A.rank = n := by
  have hcursor : A.reduction.cursor = n := (reductionUpTo_of_dominant hA n le_rfl).1
  have hrank := A.rank_eq_kept_add_residual
  rw [A.length_keptRows, hcursor] at hrank
  exact le_antisymm A.rank_le_rows (by omega)

/-- Each column of a dominant matrix is far from the span of the columns before it. -/
theorem le_distanceBefore_of_dominant {A : Mat ℝ n n} {ε : ℝ} (hA : ∀ k, ε ≤ A.excess k)
    (hε : 0 ≤ ε) (c : Fin n) : ε ≤ A.distanceBefore c := by
  refine (Metric.le_infDist ⟨_, Submodule.zero_mem _⟩).mpr ?_
  intro u hu
  obtain ⟨a, ha, rfl⟩ := exists_sum_of_mem_spanBefore hu
  let x : Vec ℝ n := .ofFn fun j => (if c = j then 1 else 0) - a j
  have hx : (A.col c).point - ∑ k, a k • (A.col k).point = (A.mulVec x).point := by
    rw [mulVec_point]
    simp [x, sub_smul, Finset.sum_sub_distrib, ite_smul]
  have hone : |x c| = 1 := by simp [x, ha c le_rfl]
  obtain ⟨k, hk⟩ := exists_excess_mul_le (fun k => hε.trans (hA k)) x c
  rw [hone, mul_one] at hk
  calc ε ≤ |(A.mulVec x) k| := (hA k).trans hk
    _ ≤ ‖(A.mulVec x).point‖ := PiLp.norm_apply_le (A.mulVec x).point k
    _ = dist (A.col c).point (∑ k, a k • (A.col k).point) := by rw [dist_eq_norm, hx]

end Mat

namespace DenseMatrix

/-- If the diagonal entry of each row exceeds the others together by more than the tolerance, the
inverse of the matrix is found, and its determinant, which is not zero, and its orthogonal factors,
and that it has full rank. -/
theorem full_rank_of_dominant (A : DenseMatrix ℝ) (S : Mat ℝ A.height A.height)
    (hS : A.toSquare = .ok S) (h : ∀ i, 1 / 10 ^ 10 < S.excess i) :
    (∃ B I, A.inverse = .ok B ∧ identity A.height = .ok I ∧ A.mul B = .ok I ∧ B.mul A = .ok I) ∧
      (∃ d, A.det.result = .ok d ∧ d ≠ 0 ∧ d = S.toMatrix.det) ∧
      (∃ f, A.qr = .ok f ∧ f.q.transpose.mul f.q = .identity A.width ∧
        (∀ r c, c < r → f.r r c = 0) ∧ f.q.mul f.r = A.entries) ∧
      A.rank.result = .ok A.height ∧ S.toMatrix.rank = A.height := by
  obtain ⟨m, n, hm, hn, E⟩ := A
  obtain rfl : n = m := width_eq_of_toSquare hS
  obtain rfl : E = S := Except.ok.inj ((toSquare_mk hm hn E).symm.trans hS)
  have hinv : E.inverse ≠ none := Mat.inverse_ne_none_of_dominant h
  have hne : E.det ≠ 0 := mt Mat.det_eq_zero_iff.mp hinv
  have hdet : E.det = E.toMatrix.det := E.det_eq_or_eq_zero.resolve_right hne
  refine ⟨?_, ⟨E.det, by rw [det_mk], hne, hdet⟩, ?_, ?_, ?_⟩
  · obtain ⟨B, hB⟩ := (inverse_mk_eq_ok_iff hm hn E).mpr (Option.isSome_iff_ne_none.mpr hinv)
    obtain ⟨I, hI, hr, hl⟩ := mul_of_inverse_eq_ok hB
    exact ⟨B, I, hB, hI, hr, hl⟩
  · obtain ⟨f, hf⟩ := (QR.exists_upTo_iff le_rfl).mpr fun c _ =>
      Mat.le_distanceBefore_of_dominant (fun k => (h k).le) tolerance_pos.le c
    have hfactors := QR.upTo_factors hf
    exact ⟨f, qr_eq_ok_iff.mpr hf, hfactors.transpose_mul_self, hfactors.below, hfactors.mul_eq⟩
  · simp [rank, Mat.rank_of_dominant h]
  · have hunit : IsUnit E.toMatrix :=
      (Matrix.isUnit_iff_isUnit_det _).mpr (isUnit_iff_ne_zero.mpr (hdet ▸ hne))
    rw [Matrix.rank_of_isUnit _ hunit, Fintype.card_fin]

/-- The largest entry of the first column is in the second row, so the first step of the inversion
exchanges rows. -/
def outgrown : Mat ℚ 3 3 := .ofFn ![![2, 1, 0], ![-4, 9, 3], ![1, 1, 3]]

theorem full_rank_outgrown :
    let S := outgrown.map (Rat.castHom ℝ)
    let A : DenseMatrix ℝ := ⟨3, 3, Nat.succ_pos 2, Nat.succ_pos 2, S⟩
    (∃ B I, A.inverse = .ok B ∧ identity 3 = .ok I ∧ A.mul B = .ok I ∧ B.mul A = .ok I) ∧
      (∃ d, A.det.result = .ok d ∧ d ≠ 0 ∧ d = S.toMatrix.det) ∧
      (∃ f, A.qr = .ok f ∧ f.q.transpose.mul f.q = .identity 3 ∧
        (∀ r c, c < r → f.r r c = 0) ∧ f.q.mul f.r = S) ∧
      A.rank.result = .ok 3 ∧ S.toMatrix.rank = 3 := by
  intro S A
  have hexcess (i : Fin 3) : 1 / 10 ^ 10 < S.excess i := by
    fin_cases i <;>
      norm_num [Mat.excess, S, outgrown, Finset.sum_erase_eq_sub, Fin.sum_univ_succ]
  exact full_rank_of_dominant A S (toSquare_mk _ _ _) hexcess

end DenseMatrix

end DenseLinear
