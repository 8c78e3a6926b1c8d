import DenseLinear.Proofs.EchelonForm

/-!
# Rank and nullity

The rank counts the rows of the reduced form with a significant entry. These are pivot rows, and
rows that no pivot was found for but whose entries in the skipped columns have grown since. Of the
latter there may be more than skipped columns: then the rank is larger than the width, and the
nullity wraps around.
-/

namespace DenseLinear

namespace Mat

section

variable {α : Type} [Scalar α] {m n : Nat}

/-- The pivot rows of the reduced form that have a significant entry. -/
def keptRows (A : Mat α m n) : List (Fin m) :=
  A.rref.significantRows.filter fun i => i.val < A.reduction.cursor

/-- The rows of the reduced form that have a significant entry, but no pivot. -/
def residualRows (A : Mat α m n) : List (Fin m) :=
  A.rref.significantRows.filter fun i => !decide (i.val < A.reduction.cursor)

theorem rank_eq_kept_add_residual (A : Mat α m n) :
    A.rank = A.keptRows.length + A.residualRows.length :=
  List.length_eq_length_filter_add _

theorem mem_significantRows {A : Mat α m n} {i : Fin m} :
    i ∈ A.significantRows ↔ ∃ j, Significant (A i j) := by
  simp [significantRows]

theorem mem_residualRows {A : Mat α m n} {i : Fin m} :
    i ∈ A.residualRows ↔ A.reduction.cursor ≤ i ∧ ∃ j, Significant (A.rref i j) := by
  rw [residualRows, List.mem_filter, mem_significantRows, and_comm]
  simp

theorem length_filter_lt_finRange {c : Nat} (h : c ≤ m) :
    ((List.finRange m).filter fun i => i.val < c).length = c := by
  have hc : (Finset.univ.filter fun i : Fin m => i.val < c).card = min m c :=
    Fin.card_filter_val_lt
  rwa [min_eq_right h] at hc

theorem cursor_le_rows (A : Mat α m n) : A.reduction.cursor ≤ m :=
  (A.reductionUpTo_ordered n le_rfl).cursor_le

/-- Different pivots are in different columns. -/
theorem cursor_le_columns (A : Mat α m n) : A.reduction.cursor ≤ n := by
  have hnodup : A.reduction.columns.Nodup :=
    (A.reductionUpTo_ordered n le_rfl).increasing.imp fun h => h.ne
  have hle := hnodup.length_le_card
  rwa [Fintype.card_fin, Reduction.length_columns] at hle

theorem length_keptRows_le (A : Mat α m n) : A.keptRows.length ≤ A.reduction.cursor := by
  have hsub : A.keptRows.Sublist ((List.finRange m).filter fun i => i.val < A.reduction.cursor) :=
    List.Sublist.filter _ List.filter_sublist
  exact hsub.length_le.trans (length_filter_lt_finRange A.cursor_le_rows).le

/-- The difference of machine words is that of the numbers unless the rank is too large. -/
theorem rank_add_nullity_eq_iff (A : Mat α m n) (hm : m < UInt64.size) (hn : n < UInt64.size) :
    A.rank + A.nullity.toNat = n ↔ A.rank ≤ n := by
  have hr : A.rank < UInt64.size := lt_of_le_of_lt A.rank_le_rows hm
  rw [nullity, UInt64.toNat_sub, UInt64.toNat_ofNat_of_lt' hr, UInt64.toNat_ofNat_of_lt' hn]
  simp only [UInt64.size] at hr hn
  omega

end

variable {K : Type} [Field K] [LinearOrder K] [IsStrictOrderedRing K] {m n : Nat}

/-- Over exact scalars every pivot row keeps its pivot. -/
theorem length_keptRows (A : Mat K m n) : A.keptRows.length = A.reduction.cursor := by
  have hkept : A.keptRows = (List.finRange m).filter fun i => i.val < A.reduction.cursor := by
    rw [keptRows, significantRows, List.filter_filter]
    apply List.filter_congr
    intro i _
    by_cases hi : i.val < A.reduction.cursor
    · have hc : i.val < A.reduction.columns.length := by rwa [Reduction.length_columns]
      have hone : A.rref i (A.reduction.columns.get ⟨i, hc⟩) = 1 := by
        have hu := A.reductionUpTo_unitColumns n le_rfl i _ (List.getElem?_eq_getElem hc) i
        rwa [if_pos rfl] at hu
      have hsig : ∃ j, Significant (A.rref i j) := ⟨_, hone ▸ significant_one⟩
      simp [hi, hsig]
    · simp [hi]
  rw [hkept, length_filter_lt_finRange A.cursor_le_rows]

theorem residualRows_eq_nil {A : Mat K m n} (hA : A.SkipsOnlyZeros) : A.residualRows = [] := by
  apply List.eq_nil_iff_forall_not_mem.mpr
  intro i hi
  obtain ⟨hc, j, hj⟩ := mem_residualRows.mp hi
  rw [(rref_isReduced hA).staircase.below i ((Reduction.length_columns _).trans_le hc) j j.isLt]
    at hj
  exact not_significant_zero hj

end Mat

namespace DenseMatrix

/-- The rank is within its bounds, and the nullity complements it, exactly if there are no more
significant rows than columns. Over exact scalars these are the pivot rows and the residual ones;
there are none of the latter if only zeros are skipped. -/
theorem rank_add_nullity_iff_residual {α K : Type} [Scalar α] [Field K] [LinearOrder K]
    [IsStrictOrderedRing K] (A : DenseMatrix α) (B : DenseMatrix K)
    (hh : A.height < UInt64.size) (hw : A.width < UInt64.size) :
    (∃ r u, A.rank.result = .ok r ∧ A.nullity.result = .ok u ∧
      (r ≤ min A.height A.width ↔
        A.entries.keptRows.length + A.entries.residualRows.length ≤ A.width) ∧
      (r + u.toNat = A.width ↔
        A.entries.keptRows.length + A.entries.residualRows.length ≤ A.width) ∧
      A.entries.keptRows.length ≤ A.entries.reduction.pivots.length ∧
      A.entries.reduction.pivots.length ≤ min A.height A.width) ∧
    (∃ r, B.rank.result = .ok r ∧
      (r ≤ min B.height B.width ↔
        B.entries.residualRows.length ≤ B.width - B.entries.reduction.pivots.length) ∧
      (B.entries.SkipsOnlyZeros → r ≤ min B.height B.width)) := by
  have hA := A.entries.rank_le_rows
  have hB := B.entries.rank_le_rows
  have hpivots := B.entries.cursor_le_columns
  have hiff : B.entries.rank ≤ min B.height B.width ↔
      B.entries.residualRows.length ≤ B.width - B.entries.reduction.pivots.length := by
    have hkept : B.entries.keptRows.length = B.entries.reduction.pivots.length :=
      B.entries.length_keptRows
    rw [le_min_iff, B.entries.rank_eq_kept_add_residual, hkept]
    rw [B.entries.rank_eq_kept_add_residual, hkept] at hB
    rw [Reduction.cursor] at hpivots
    omega
  constructor
  · refine ⟨A.entries.rank, A.entries.nullity, rfl, rfl, ?_, ?_, A.entries.length_keptRows_le,
      le_min A.entries.cursor_le_rows A.entries.cursor_le_columns⟩
    · rw [le_min_iff, ← A.entries.rank_eq_kept_add_residual]
      exact and_iff_right hA
    · rw [A.entries.rank_add_nullity_eq_iff hh hw, A.entries.rank_eq_kept_add_residual]
  · refine ⟨B.entries.rank, rfl, hiff, ?_⟩
    intro hzero
    apply hiff.mpr
    rw [Mat.residualRows_eq_nil hzero]
    exact Nat.zero_le _

theorem rank_add_nullity_staggered :
    ∃ r u, staggered.rank.result = .ok r ∧ staggered.nullity.result = .ok u ∧
      r ≤ min 4 4 ∧ r + u.toNat = 4 := by
  have hrows :
      staggered.entries.keptRows.length + staggered.entries.residualRows.length ≤ 4 := by
    decide +kernel
  obtain ⟨⟨r, u, hr, hu, hle, hadd, _⟩, _⟩ :=
    rank_add_nullity_iff_residual staggered staggered (by decide) (by decide)
  exact ⟨r, u, hr, hu, hle.mpr hrows, hadd.mpr hrows⟩

def faintFloat : DenseMatrix Float :=
  ⟨_, _, faint.height_pos, faint.width_pos, .ofFn ![![5e-11, 2e-10], ![0, 1], ![0, 1]]⟩

/-- The two rows below the pivot become significant in the skipped column. -/
theorem rank_faint_exceeds_width :
    (∀ i j, (faintFloat.entries i j).isFinite = true) ∧
    faintFloat.rank.result = .ok 3 ∧ faintFloat.nullity.result = .ok 18446744073709551615 ∧
    faint.rank.result = .ok 3 ∧ faint.nullity.result = .ok 18446744073709551615 ∧
    min 3 2 < 3 ∧ 3 + (18446744073709551615 : UInt64).toNat ≠ 2 := by
  refine ⟨?_, ?_, ?_, ?_, ?_, ?_, ?_⟩ <;> decide +kernel

end DenseMatrix

end DenseLinear
