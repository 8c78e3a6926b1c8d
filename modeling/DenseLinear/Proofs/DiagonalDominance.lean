import DenseLinear.Proofs.Triangular

/-!
# Diagonally dominant matrices

In a diagonally dominant row, the diagonal entry exceeds all others taken together. Elimination
without exchanges keeps this excess: the multiple of a dominant row that clears an entry of another
row changes the rest of that row by no more than the entry it clears. So every pivot is at least the
excess of its row, and none is refused if each excess is at least the tolerance.
-/

namespace DenseLinear

variable {K : Type} [Field K] [LinearOrder K] {n : Nat}

namespace Mat

/-- By how much the diagonal entry of row `i` exceeds all other entries of the row together, in
absolute value. -/
def excess (A : Mat K n n) (i : Fin n) : K := |A i i| - ∑ j ∈ Finset.univ.erase i, |A i j|

variable [IsStrictOrderedRing K] {A B : Mat K n n} {i r : Fin n}

theorem excess_le_abs (A : Mat K n n) (i : Fin n) : A.excess i ≤ |A i i| :=
  sub_le_self _ (Finset.sum_nonneg fun _ _ => abs_nonneg _)

/-- Clearing an entry of a row with the pivot of a dominant row does not lower its excess. -/
theorem excess_le_of_cleared (hri : r ≠ i) (hpivot : A i i ≠ 0) (hdom : 0 ≤ A.excess i)
    (hB : ∀ c, B r c = A r c - A r i / A i i * A i c) : A.excess r ≤ B.excess r := by
  set a := A r i / A i i with ha
  have hcleared : B r i = 0 := by rw [hB, div_mul_cancel₀ _ hpivot, sub_self]
  have habs : |a| * |A i i| = |A r i| := by rw [← abs_mul, ha, div_mul_cancel₀ _ hpivot]
  have hsplit (C : Mat K n n) (p : Fin n) : ∑ j ∈ Finset.univ.erase r, |C p j| =
      |C p i| + ∑ j ∈ (Finset.univ.erase r).erase i, |C p j| :=
    (Finset.add_sum_erase _ _ (Finset.mem_erase.mpr ⟨hri.symm, Finset.mem_univ i⟩)).symm
  have hsplit' : ∑ j ∈ Finset.univ.erase i, |A i j| =
      |A i r| + ∑ j ∈ (Finset.univ.erase r).erase i, |A i j| := by
    rw [Finset.erase_right_comm]
    exact (Finset.add_sum_erase _ _ (Finset.mem_erase.mpr ⟨hri, Finset.mem_univ r⟩)).symm
  have hrest : ∑ j ∈ (Finset.univ.erase r).erase i, |B r j| ≤
      ∑ j ∈ (Finset.univ.erase r).erase i, |A r j| +
        |a| * ∑ j ∈ (Finset.univ.erase r).erase i, |A i j| := by
    rw [Finset.mul_sum, ← Finset.sum_add_distrib]
    apply Finset.sum_le_sum
    intro j _
    rw [hB, ← abs_mul]
    exact abs_sub _ _
  have hdiag : |A r r| ≤ |B r r| + |a| * |A i r| := by
    rw [hB, ← abs_mul]
    exact sub_le_iff_le_add.mp (abs_sub_abs_le_abs_sub _ _)
  have hgain : |a| * (|A i r| + ∑ j ∈ (Finset.univ.erase r).erase i, |A i j|) ≤ |A r i| := by
    rw [← habs, ← hsplit']
    exact mul_le_mul_of_nonneg_left (sub_nonneg.mp hdom) (abs_nonneg a)
  simp only [excess, hsplit, hcleared, abs_zero]
  linarith

end Mat

namespace LU

variable {A : Mat K n n} {f g : LU K n} {i r : Fin n}

/-- What the product of the factors leaves of `A`. -/
def leftover (f : LU K n) (A : Mat K n n) : Mat K n n :=
  .ofFn fun r c => A r c - (f.lower.mul f.upper) r c

@[simp] theorem leftover_apply (f : LU K n) (A : Mat K n n) (r c : Fin n) :
    (f.leftover A) r c = A r c - (f.lower.mul f.upper) r c := by
  simp [leftover]

variable [IsStrictOrderedRing K]

/-- A step takes the multiple of its row from each row below that clears the column of the pivot. -/
theorem FactorsUpTo.leftover_step (hf : f.FactorsUpTo A i) (h : LU.step A i f = .ok g) (hir : i < r)
    (c : Fin n) : (g.leftover A) r c =
      (f.leftover A) r c - (f.leftover A) r i / (f.leftover A) i i * (f.leftover A) i c := by
  obtain ⟨_, hl, hu⟩ := step_eq_ok h
  have hlower : g.lower r i = (f.leftover A) r i / (f.leftover A) i i := by
    rw [hl, Mat.setCol_apply, if_pos rfl, if_neg hir.ne', if_pos hir, hf.remainder_eq,
      hf.remainder_eq, leftover_apply, leftover_apply]
  have hupper : g.upper i c = (f.leftover A) i c := by
    rw [hu, Mat.setRow_apply, if_pos rfl, leftover_apply]
    split_ifs with hc
    · exact hf.remainder_eq i c
    · rw [hf.below i c (not_le.mp hc), hf.product i c (.inr (not_le.mp hc)), sub_self]
  rw [leftover_apply, hf.mul_step h, hlower, hupper, leftover_apply f A r c]
  ring

/-- In the first `k` rows the pivots, and in the others the leftovers, have at least the excess of
the row of `A`. -/
structure ExceedsUpTo (A : Mat K n n) (k : Nat) (f : LU K n) : Prop extends f.FactorsUpTo A k where
  excess_le_pivot : ∀ j : Fin n, j.val < k → A.excess j ≤ |f.upper j j|
  excess_le_leftover : ∀ r : Fin n, k ≤ r.val → A.excess r ≤ (f.leftover A).excess r

theorem ExceedsUpTo.step (hf : f.ExceedsUpTo A i) (hA : ∀ r, 1 / 10 ^ 10 ≤ A.excess r) :
    ∃ g, LU.step A i f = .ok g ∧ g.ExceedsUpTo A (i + 1) := by
  have hexcess : A.excess i ≤ (f.leftover A).excess i := hf.excess_le_leftover i le_rfl
  have hpivot : A.excess i ≤ |(f.leftover A) i i| := hexcess.trans (Mat.excess_le_abs _ i)
  have hrem : f.remainder A i i i = (f.leftover A) i i := by rw [hf.remainder_eq, leftover_apply]
  have hnot : ¬Negligible (f.remainder A i i i) := by
    rw [hrem, negligible_iff, not_lt]
    exact (hA i).trans hpivot
  have hne : (f.leftover A) i i ≠ 0 := hrem ▸ ne_zero_of_not_negligible hnot
  have hdom : 0 ≤ (f.leftover A).excess i := (tolerance_pos.le.trans (hA i)).trans hexcess
  obtain ⟨g, hg⟩ : ∃ g, LU.step A i f = .ok g := ⟨_, if_neg hnot⟩
  obtain ⟨_, _, hu⟩ := step_eq_ok hg
  refine ⟨g, hg, hf.toFactorsUpTo.step hg, ?_, ?_⟩
  · intro j hj
    rw [hu, Mat.setRow_apply]
    rcases lt_or_eq_of_lt_succ hj with hlt | rfl
    · rw [if_neg hlt.ne]
      exact hf.excess_le_pivot j hlt
    · rw [if_pos rfl, if_pos le_rfl, hrem]
      exact hpivot
  · intro r hr
    have hir : i < r := hr
    exact (hf.excess_le_leftover r (Nat.le_of_succ_le hr)).trans
      (Mat.excess_le_of_cleared hir.ne' hne hdom (hf.leftover_step hg hir))

theorem exceedsUpTo_zero (A : Mat K n n) : ExceedsUpTo A 0 ⟨.zero n n, .zero n n⟩ := by
  have hleft : LU.leftover ⟨.zero n n, .zero n n⟩ A = A := by
    ext r c
    rw [leftover_apply, Mat.mul_entry]
    simp
  refine ⟨upTo_factors (h := Nat.zero_le n) rfl, ?_, ?_⟩
  · intro j hj
    exact absurd hj (Nat.not_lt_zero _)
  · intro r _
    rw [hleft]

end LU

namespace DenseMatrix

variable [IsStrictOrderedRing K]

/-- If the diagonal entry of each row exceeds the others together by at least the tolerance, the
triangular factors of the matrix are found, and no pivot is less than the excess of its row. -/
theorem lu_of_dominant (A : DenseMatrix K) (S : Mat K A.height A.height)
    (hS : A.toSquare = .ok S) (h : ∀ i, 1 / 10 ^ 10 ≤ S.excess i) :
    ∃ f, A.lu = .ok f ∧ (∀ i, S.excess i ≤ |f.upper i i|) ∧ f.lower.mul f.upper = S ∧
      (∀ i, f.lower i i = 1) ∧ (∀ r c, r < c → f.lower r c = 0) ∧
      ∀ r c, c < r → f.upper r c = 0 := by
  obtain ⟨f, hf, hexceeds⟩ := exists_tryAfterSteps (fun k f => LU.ExceedsUpTo S k f)
    (LU.exceedsUpTo_zero S) (fun i f hf => hf.step h) A.height le_rfl
  have hfactors : f.FactorsUpTo S A.height := LU.upTo_factors hf
  exact ⟨f, lu_eq_ok_iff.mpr ⟨S, hS, hf⟩, fun i => hexceeds.excess_le_pivot i i.isLt,
    hfactors.mul_eq, fun i => hfactors.diagonal i i.isLt, hfactors.above, hfactors.below⟩

/-- Dominant, with an excess of just the tolerance in the last row. -/
def barelyDominant : Mat ℚ 3 3 :=
  .ofFn ![![-3, 1, 1], ![2, 5, -2], ![1, -1, 2 + 1 / 10 ^ 10]]

theorem lu_barelyDominant :
    let A : DenseMatrix ℚ := ⟨3, 3, Nat.succ_pos 2, Nat.succ_pos 2, barelyDominant⟩
    barelyDominant.excess 2 = 1 / 10 ^ 10 ∧
    ∃ f, A.lu = .ok f ∧ (∀ i, barelyDominant.excess i ≤ |f.upper i i|) ∧
      f.lower.mul f.upper = barelyDominant := by
  intro A
  have h : ∀ i, 1 / 10 ^ 10 ≤ barelyDominant.excess i := by decide +kernel
  obtain ⟨f, hf, hpivots, hproduct, _⟩ := lu_of_dominant A barelyDominant (toSquare_mk _ _ _) h
  exact ⟨by decide +kernel, f, hf, hpivots, hproduct⟩

end DenseMatrix

end DenseLinear
