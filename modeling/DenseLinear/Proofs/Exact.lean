import Mathlib
import DenseLinear.Scalar

/-!
# Exact scalars

An ordered field as scalars: no operation rounds, and the tolerance is `10⁻¹⁰`. A significant
number is not zero, but a number that is not significant need not be zero. Sums do not depend on
the order of the additions any more, and a sum splits at each of its terms.
-/

namespace DenseLinear

/-- The operations of an ordered field, with tolerance `10⁻¹⁰`. -/
instance instScalarExact {K : Type} [Field K] [LinearOrder K] : Scalar K where
  abs x := |x|
  eps := 1 / 10 ^ 10
  decidableLT := inferInstance

variable {K : Type} [Field K] [LinearOrder K] {n : Nat}

theorem significant_iff (x : K) : Significant x ↔ 1 / 10 ^ 10 < |x| := Iff.rfl

theorem negligible_iff (x : K) : Negligible x ↔ |x| < 1 / 10 ^ 10 := Iff.rfl

theorem sumFrom_eq (start : K) (f : Fin n → K) : sumFrom start f = start + ∑ i, f i := by
  unfold sumFrom
  induction n with
  | zero => simp
  | succ n ih => rw [Fin.foldl_succ_last, ih, Fin.sum_univ_castSucc, add_assoc]

theorem sum_eq (f : Fin n → K) : sum f = ∑ i, f i := by
  simp [sum, sumFrom_eq]

theorem sumBefore_eq (i : Fin n) (f : Fin n → K) : sumBefore i f = ∑ k ∈ Finset.Iio i, f k := by
  rw [sumBefore, sum_eq]
  refine Finset.sum_bij (fun k _ => before i k) ?_ ?_ ?_ ?_
  · intro k _
    exact Finset.mem_Iio.mpr (before_lt i k)
  · intro k _ l _ h
    exact Fin.castLE_injective _ h
  · intro k hk
    exact ⟨⟨k, Fin.lt_def.mp (Finset.mem_Iio.mp hk)⟩, Finset.mem_univ _, rfl⟩
  · intro k _
    rfl

theorem sumAfter_eq (i : Fin n) (f : Fin n → K) : sumAfter i f = ∑ k ∈ Finset.Ioi i, f k := by
  rw [sumAfter, sum_eq]
  refine Finset.sum_bij (fun k _ => after i k) ?_ ?_ ?_ ?_
  · intro k _
    exact Finset.mem_Ioi.mpr (lt_after i k)
  · intro k _ l _ h
    simp only [after, Fin.mk.injEq] at h
    exact Fin.ext (by omega)
  · intro k hk
    have hik : i.val < k := Fin.lt_def.mp (Finset.mem_Ioi.mp hk)
    refine ⟨⟨k - (i + 1), by omega⟩, Finset.mem_univ _, Fin.ext ?_⟩
    simp only [after]
    omega
  · intro k _
    rfl

theorem sumBefore_eq_zero {i : Fin n} {f : Fin n → K} (h : ∀ k < i, f k = 0) :
    sumBefore i f = 0 := by
  rw [sumBefore_eq]
  exact Finset.sum_eq_zero fun k hk => h k (Finset.mem_Iio.mp hk)

theorem sumAfter_eq_zero {i : Fin n} {f : Fin n → K} (h : ∀ k, i < k → f k = 0) :
    sumAfter i f = 0 := by
  rw [sumAfter_eq]
  exact Finset.sum_eq_zero fun k hk => h k (Finset.mem_Ioi.mp hk)

theorem sum_eq_before_add_after (i : Fin n) (f : Fin n → K) :
    ∑ k, f k = sumBefore i f + f i + sumAfter i f := by
  rw [sumBefore_eq, sumAfter_eq, Fintype.sum_eq_add_sum_compl i, ← Finset.Ioi_disjUnion_Iio,
    Finset.sum_disjUnion]
  ring

theorem sumBefore_eq_sum {i : Fin n} {f : Fin n → K} (h : ∀ k, i ≤ k → f k = 0) :
    sumBefore i f = ∑ k, f k := by
  rw [sum_eq_before_add_after i, h i le_rfl, sumAfter_eq_zero fun k hk => h k hk.le, add_zero,
    add_zero]

variable [IsStrictOrderedRing K]

theorem tolerance_pos : (0 : K) < 1 / 10 ^ 10 := by positivity

theorem ne_zero_of_significant {x : K} (h : Significant x) : x ≠ 0 :=
  abs_pos.mp (lt_trans tolerance_pos h)

theorem ne_zero_of_not_negligible {x : K} (h : ¬Negligible x) : x ≠ 0 :=
  abs_pos.mp (lt_of_lt_of_le tolerance_pos (not_lt.mp h))

theorem not_significant_zero : ¬Significant (0 : K) :=
  fun h => ne_zero_of_significant h rfl

theorem significant_one : Significant (1 : K) := by
  rw [significant_iff, abs_one]
  norm_num

end DenseLinear
