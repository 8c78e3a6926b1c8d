import DenseLinear.Proofs.Rank
import DenseLinear.Proofs.RowSpace

/-!
# Rank and bases of the row and column space

A matrix and its reduced form differ by an invertible factor from the left, which keeps the linear
dependencies between the columns. If only zeros are skipped, the pivot columns of the reduced form
are unit vectors that span all its columns, so the columns of the matrix itself at these places are
a basis of what its columns span. The rows of the reduced form with a significant entry are a basis
of the row space. Both bases are as long as the computed rank, which is therefore the true one.
-/

namespace DenseLinear

section

variable {K : Type} [Field K] {n : Nat} {l : List (Vec K n)} {S : Submodule K (Fin n → K)}

/-- The vectors of `l` are linearly independent and span `S`. -/
structure IsBasis (l : List (Vec K n)) (S : Submodule K (Fin n → K)) : Prop where
  independent : LinearIndependent K fun i : Fin l.length => (l.get i).entry
  span_eq : Submodule.span K (Set.range fun i : Fin l.length => (l.get i).entry) = S

theorem IsBasis.finrank_eq (h : IsBasis l S) : Module.finrank K S = l.length := by
  rw [← h.span_eq, finrank_span_eq_card h.independent, Fintype.card_fin]

/-- A list without repetition may be read as the family of its members. -/
theorem isBasis_map {β : Type} {l : List β} (hl : l.Nodup) {P : β → Prop}
    (hP : ∀ b, b ∈ l ↔ P b) {f : β → Vec K n}
    (hindependent : LinearIndependent K fun b : {b // P b} => (f b).entry)
    (hspan : Submodule.span K (Set.range fun b : {b // P b} => (f b).entry) = S) :
    IsBasis (l.map f) S := by
  let member (i : Fin (l.map f).length) : {b // P b} :=
    ⟨l.get (i.cast (List.length_map f)), (hP _).mp (List.get_mem l _)⟩
  have hfamily : (fun i => ((l.map f).get i).entry) =
      (fun b : {b // P b} => (f b).entry) ∘ member := by
    funext i
    simp [member]
  have hinjective : member.Injective := by
    intro i i' h
    have hget := hl.injective_get (congrArg Subtype.val h)
    exact Fin.cast_injective _ hget
  have hsurjective : member.Surjective := by
    rintro ⟨b, hb⟩
    obtain ⟨i, hi⟩ := List.mem_iff_get.mp ((hP b).mpr hb)
    exact ⟨i.cast (List.length_map f).symm, Subtype.ext hi⟩
  constructor
  · rw [hfamily]
    exact hindependent.comp member hinjective
  · rw [hfamily, hsurjective.range_comp, hspan]

end

namespace Mat

section

variable {K : Type} [Field K] {m n : Nat}

def colSpan (A : Mat K m n) : Submodule K (Fin m → K) :=
  Submodule.span K (Set.range A.toMatrix.col)

theorem finrank_colSpan (A : Mat K m n) : Module.finrank K A.colSpan = A.toMatrix.rank :=
  (Matrix.rank_eq_finrank_span_cols _).symm

variable [LinearOrder K]

/-- A factor from the left maps the columns. -/
theorem mulVecLin_comp_col (E : Mat K m m) (A : Mat K m n) :
    E.toMatrix.mulVecLin ∘ A.toMatrix.col = (E.mul A).toMatrix.col := by
  rw [toMatrix_mul]
  rfl

end

variable {K : Type} [Field K] [LinearOrder K] {m n : Nat} {R : Mat K m n} {cols : List (Fin n)}

theorem IsReduced.col_pivot (h : R.IsReduced cols) {i : Fin m} {c : Fin n}
    (hc : cols[i.val]? = some c) : R.toMatrix.col c = Pi.single i 1 := by
  funext p
  rw [Pi.single_apply]
  exact (h.unit i c hc p).trans (if_congr Fin.ext_iff.symm rfl rfl)

theorem IsReduced.linearIndependent_col (h : R.IsReduced cols) :
    LinearIndependent K fun c : {c // c ∈ cols} => R.toMatrix.col c.val := by
  choose pivotRow hpivot using fun c : {c // c ∈ cols} => h.exists_row c.2
  have hinjective : pivotRow.Injective := by
    intro c d hcd
    have hd := hpivot d
    rw [← hcd, hpivot c] at hd
    exact Subtype.ext (Option.some.inj hd)
  have hunit : (fun c : {c // c ∈ cols} => R.toMatrix.col c.val) =
      (fun i => Pi.single i 1) ∘ pivotRow := funext fun c => h.col_pivot (hpivot c)
  rw [hunit]
  exact (Pi.linearIndependent_single_one (Fin m) K).comp pivotRow hinjective

/-- Each column of a reduced form is a combination of the pivot columns. -/
theorem IsReduced.span_col (h : R.IsReduced cols) :
    Submodule.span K (Set.range fun c : {c // c ∈ cols} => R.toMatrix.col c.val) = R.colSpan := by
  apply le_antisymm
  · apply Submodule.span_mono
    rintro _ ⟨c, rfl⟩
    exact ⟨c.val, rfl⟩
  · apply Submodule.span_le.mpr
    rintro _ ⟨j, rfl⟩
    rw [SetLike.mem_coe, pi_eq_sum_univ' (R.toMatrix.col j)]
    apply Submodule.sum_mem
    intro i _
    cases hd : cols[i.val]? with
    | none =>
      have hzero : R.toMatrix.col j i = 0 := h.eq_zero_of_none hd j
      rw [hzero, zero_smul]
      exact Submodule.zero_mem _
    | some d =>
      rw [← h.col_pivot hd]
      exact Submodule.smul_mem _ _
        (Submodule.subset_span ⟨⟨d, List.mem_of_getElem? hd⟩, rfl⟩)

/-- The rows of a reduced form that have a pivot are the significant ones, and each of them alone
is not zero in its pivot column. -/
theorem IsReduced.linearIndependent_entry (h : R.IsReduced cols) :
    LinearIndependent K fun i : {i : Fin m // i.val < cols.length} => R.entry i.val := by
  apply linearIndependent_of_unit_coordinates fun i => cols[i.val.val]
  intro i k
  have hk := h.unit k.val.val cols[k.val.val] (List.getElem?_eq_getElem k.2) i.val
  exact hk.trans (if_congr (by rw [eq_comm, Subtype.ext_iff, Fin.ext_iff]) rfl rfl)

theorem IsReduced.span_entry (h : R.IsReduced cols) :
    Submodule.span K (Set.range fun i : {i : Fin m // i.val < cols.length} => R.entry i.val) =
      R.rowSpan := by
  apply le_antisymm
  · apply Submodule.span_mono
    rintro _ ⟨i, rfl⟩
    exact ⟨i.val, rfl⟩
  · apply Submodule.span_le.mpr
    rintro _ ⟨i, rfl⟩
    by_cases hi : i.val < cols.length
    · exact Submodule.subset_span ⟨⟨i, hi⟩, rfl⟩
    · have hzero : R.entry i = 0 := funext fun j => h.staircase.below i (not_lt.mp hi) j j.isLt
      rw [hzero]
      exact Submodule.zero_mem _

variable [IsStrictOrderedRing K]

theorem IsReduced.mem_significantRows_iff (h : R.IsReduced cols) (i : Fin m) :
    i ∈ R.significantRows ↔ i.val < cols.length := by
  have hlead := isSome_leadingColumn? R i
  rw [h.leadingColumn?] at hlead
  rw [significantRows, List.mem_filter, ← hlead]
  simp

variable {A : Mat K m n}

/-- The columns of the matrix at the pivots are a basis of what its columns span. -/
theorem isBasis_columnSpace (hA : A.SkipsOnlyZeros) : IsBasis A.columnSpace A.colSpan := by
  have h := rref_isReduced hA
  obtain ⟨E, F, _, hFE, hE⟩ := A.rref_rowEquivalent
  have hreduced : E.toMatrix.mulVecLin ∘ A.toMatrix.col = A.rref.toMatrix.col := by
    rw [mulVecLin_comp_col, hE]
  have hback : F.toMatrix.mulVecLin ∘ A.rref.toMatrix.col = A.toMatrix.col := by
    rw [mulVecLin_comp_col, hE, ← mul_mul, hFE, identity_mul]
  have hcol : (fun c : {c // c ∈ A.reduction.columns} => (A.col c.val).entry) =
      A.toMatrix.col ∘ Subtype.val := by
    funext c i
    exact A.col_apply i c.val
  rw [columnSpace, pivotColumns_eq hA]
  apply isBasis_map h.nodup fun _ => Iff.rfl
  · apply LinearIndependent.of_comp E.toMatrix.mulVecLin
    rw [hcol, ← Function.comp_assoc, hreduced]
    exact h.linearIndependent_col
  · rw [hcol, colSpan, ← hback, Function.comp_assoc, Set.range_comp F.toMatrix.mulVecLin,
      Set.range_comp F.toMatrix.mulVecLin, Submodule.span_image, Submodule.span_image]
    exact congrArg (Submodule.map _) h.span_col

theorem isBasis_rowSpace (hA : A.SkipsOnlyZeros) : IsBasis A.rowSpace A.rowSpan := by
  have h := rref_isReduced hA
  rw [rowSpace, ← A.rowSpan_rref]
  apply isBasis_map ((List.nodup_finRange m).filter _) h.mem_significantRows_iff
  · exact h.linearIndependent_entry
  · exact h.span_entry

theorem rank_eq (hA : A.SkipsOnlyZeros) : A.rank = A.toMatrix.rank := by
  rw [← A.finrank_colSpan, (isBasis_columnSpace hA).finrank_eq, columnSpace, List.length_map,
    length_pivotColumns]

/-- Full rank is the linear independence of the columns. -/
theorem fullColumnRank_iff (hA : A.SkipsOnlyZeros) :
    A.FullColumnRank ↔ ∀ c : Fin n → K, (∀ i, ∑ j, c j * A i j = 0) → ∀ j, c j = 0 := by
  have hcombination (c : Fin n → K) :
      ∑ j, c j • A.toMatrix.col j = 0 ↔ ∀ i, ∑ j, c j * A i j = 0 := by
    rw [funext_iff]
    refine forall_congr' fun i => ?_
    rw [Finset.sum_apply]
    rfl
  have hindependent : LinearIndependent K A.toMatrix.col ↔ n = A.toMatrix.rank := by
    rw [linearIndependent_iff_card_eq_finrank_span, Fintype.card_fin,
      Matrix.rank_eq_finrank_span_cols]
    rfl
  rw [FullColumnRank, rank_eq hA, eq_comm, ← hindependent, Fintype.linearIndependent_iff]
  exact forall_congr' fun c => imp_congr_left (hcombination c)

theorem rank_transpose (hA : A.SkipsOnlyZeros) (hAt : A.transpose.SkipsOnlyZeros) :
    A.rank = A.transpose.rank := by
  have htranspose : A.transpose.toMatrix = A.toMatrix.transpose := by
    ext i j
    exact A.transpose_apply i j
  rw [rank_eq hA, rank_eq hAt, htranspose, Matrix.rank_transpose]

end Mat

namespace DenseMatrix

variable {K : Type} [Field K] [LinearOrder K] [IsStrictOrderedRing K]

/-- If only zeros are skipped, the computed rank is the true one, the test for linearly independent
columns tells whether only the trivial combination of the columns is zero, and the computed bases
of the column space and the row space are bases of what the columns and the rows span. If only zeros
are skipped in the transpose as well, it has the same rank. -/
theorem rank_and_bases (A : DenseMatrix K) (hA : A.entries.SkipsOnlyZeros) :
    A.rank.result = .ok A.entries.toMatrix.rank ∧
    (A.independentColumns.result = .ok true ↔
      ∀ c : Fin A.width → K, (∀ i, ∑ j, c j * A.entries i j = 0) → ∀ j, c j = 0) ∧
    (∃ basis : List (Vec K A.height), A.columnSpace.result = .ok (basis.map (·.toArray)) ∧
      IsBasis basis A.entries.colSpan) ∧
    (∃ basis : List (Vec K A.width), A.rowSpace.result = .ok (basis.map (·.toArray)) ∧
      IsBasis basis A.entries.rowSpan) ∧
    (A.transpose.entries.SkipsOnlyZeros → A.rank.result = A.transpose.rank.result) := by
  refine ⟨?_, ?_, ?_, ?_, ?_⟩
  · rw [rank, result_withReduction, Mat.rank_eq hA]
  · rw [independentColumns, result_withReduction, Except.ok.injEq, decide_eq_true_iff]
    exact Mat.fullColumnRank_iff hA
  · exact ⟨A.entries.columnSpace, rfl, Mat.isBasis_columnSpace hA⟩
  · exact ⟨A.entries.rowSpace, rfl, Mat.isBasis_rowSpace hA⟩
  · intro hAt
    rw [rank, rank, result_withReduction, result_withReduction, Except.ok.injEq]
    exact Mat.rank_transpose hA hAt

/-- The second and the fourth column are combinations of the other two, and the third row is the sum
of the other two. -/
def crossed : Mat ℚ 3 4 := .ofFn ![![1, 2, 0, 3], ![2, 4, 1, 7], ![3, 6, 1, 10]]

theorem rank_and_bases_crossed :
    let A : DenseMatrix ℚ := ⟨3, 4, Nat.succ_pos 2, Nat.succ_pos 3, crossed⟩
    crossed.SkipsOnlyZeros ∧ crossed.transpose.SkipsOnlyZeros ∧ crossed.toMatrix.rank = 2 ∧
    A.transpose.rank.result = .ok 2 ∧
    A.columnSpace.result = .ok [#[1, 2, 3], #[0, 1, 1]] ∧
    (∃ basis : List (Vec ℚ 3), A.columnSpace.result = .ok (basis.map (·.toArray)) ∧
      IsBasis basis crossed.colSpan) ∧
    A.rowSpace.result = .ok [#[1, 2, 0, 3], #[0, 0, 1, 1]] ∧
    ∃ basis : List (Vec ℚ 4), A.rowSpace.result = .ok (basis.map (·.toArray)) ∧
      IsBasis basis crossed.rowSpan := by
  have hskips : crossed.SkipsOnlyZeros ∧ crossed.transpose.SkipsOnlyZeros := by decide +kernel
  have hrank : crossed.rank = 2 := by decide +kernel
  have hcolumns : crossed.columnSpace.map (·.toArray) = [#[1, 2, 3], #[0, 1, 1]] := by
    decide +kernel
  have hrows : crossed.rowSpace.map (·.toArray) = [#[1, 2, 0, 3], #[0, 0, 1, 1]] := by
    decide +kernel
  intro A
  have hA : A.rank.result = .ok 2 := congrArg Except.ok hrank
  obtain ⟨htrue, _, hcolumnBasis, hrowBasis, htranspose⟩ := rank_and_bases A hskips.1
  refine ⟨hskips.1, hskips.2, ?_, ?_, congrArg Except.ok hcolumns, hcolumnBasis,
    congrArg Except.ok hrows, hrowBasis⟩
  · exact (Except.ok.inj (hA.symm.trans htrue)).symm
  · rw [← htranspose hskips.2, hA]

end DenseMatrix

end DenseLinear
