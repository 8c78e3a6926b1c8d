import DenseLinear.Proofs.NullSpace

/-!
# Lists of basis vectors

The rank, the pivot columns and the bases are read off the reduced form by separate scans. They fit
each other for any entries whatever, numbers or not: the scans visit the rows in the same order and
accept the same ones. Pivot columns may repeat. The vectors of the null space are unit vectors in
the free columns, so wherever zero and one have their usual meaning they are linearly independent.
-/

namespace DenseLinear

/-- The first significant entry of `v` is at `c`. -/
def Vec.LeadsAt {α : Type} [Scalar α] {n : Nat} (v : Vec α n) (c : Fin n) : Prop :=
  Significant (v c) ∧ ∀ j < c, ¬Significant (v j)

namespace Mat

variable {α : Type} [Scalar α] {m n : Nat}

/-- The rows with a significant entry are those with a leading column, in the same order. -/
theorem forall₂_leadingColumns (R : Mat α m n) :
    List.Forall₂ (fun i c => R.leadingColumn? i = some c) R.significantRows R.leadingColumns := by
  simp only [leadingColumns, significantRows, ← isSome_leadingColumn?]
  generalize List.finRange m = rows
  induction rows with
  | nil => exact .nil
  | cons i rows ih =>
    cases h : R.leadingColumn? i with
    | none => simpa [h] using ih
    | some c => simpa [h] using ih

theorem forall₂_rowSpace (A : Mat α m n) : A.rowSpace.Forall₂ Vec.LeadsAt A.pivotColumns := by
  apply List.forall₂_map_left_iff.mpr
  refine A.rref.forall₂_leadingColumns.imp ?_
  intro i c h
  exact leadingColumn?_eq_some_iff.mp h

theorem length_rowSpace (A : Mat α m n) : A.rowSpace.length = A.rank := List.length_map _

theorem length_columnSpace (A : Mat α m n) : A.columnSpace.length = A.rank :=
  (List.length_map _).trans A.length_pivotColumns

theorem increasing_freeColumns (A : Mat α m n) : A.freeColumns.Pairwise (· < ·) :=
  (List.pairwise_lt_finRange n).filter _

theorem forall₂_freeSolutions (A : Mat α m n) :
    A.freeSolutions.Forall₂ (fun v j => ∀ l ∈ A.freeColumns, v l = if l = j then 1 else 0)
      A.freeColumns := by
  apply List.forall₂_map_left_iff.mpr
  apply List.forall₂_same.mpr
  intro j _ l hl
  exact freeSolution_of_notMem (mem_freeColumns.mp hl)

theorem linearIndependent_freeSolutions {F : Type} [Field F] {read : α → F} (hzero : read 0 = 0)
    (hone : read 1 = 1) (A : Mat α m n) :
    LinearIndependent F fun k : Fin A.freeSolutions.length =>
      fun i => read ((A.freeSolutions.get k) i) := by
  have hlength : A.freeSolutions.length = A.freeColumns.length := List.length_map _
  apply linearIndependent_of_unit_coordinates fun k => A.freeColumns.get (k.cast hlength)
  intro k l
  have hentry := (List.forall₂_iff_get.mp A.forall₂_freeSolutions).2 k k.isLt
    (hlength ▸ k.isLt) _ (List.get_mem _ (l.cast hlength))
  have hsame : A.freeColumns.get (l.cast hlength) = A.freeColumns.get (k.cast hlength) ↔ l = k := by
    rw [A.nodup_freeColumns.injective_get.eq_iff]
    exact (Fin.cast_injective hlength).eq_iff
  refine (congrArg read hentry).trans ?_
  rw [apply_ite read, hzero, hone]
  exact if_congr hsame rfl rfl

end Mat

namespace DenseMatrix

variable {α : Type} [Scalar α]

/-- The rank counts the pivot columns, the rows of the row space lead at them, and the column space
has the columns of the matrix at these places. The null space has a vector for each other column, in
increasing order, which is one there and zero at the others of them; if there are none, the zero
vector alone. -/
theorem bases_share_pivots (A : DenseMatrix α) :
    ∃ (pivots free : List (Fin A.width)) (columns : List (Vec α A.height))
      (rows nulls : List (Vec α A.width)),
      A.pivotColumns.result = .ok (pivots.map (·.val)) ∧
      A.columnSpace.result = .ok (columns.map (·.toArray)) ∧
      A.rowSpace.result = .ok (rows.map (·.toArray)) ∧
      A.nullSpace.result = .ok (nulls.map (·.toArray)) ∧
      A.rank.result = .ok pivots.length ∧
      columns.length = pivots.length ∧ rows.length = pivots.length ∧
      rows.Forall₂ Vec.LeadsAt pivots ∧ columns = pivots.map A.entries.col ∧
      free.Pairwise (· < ·) ∧ (∀ j, j ∈ free ↔ j ∉ pivots) ∧
      (free = [] → nulls = [.replicate A.width 0]) ∧
      (free ≠ [] →
        nulls.Forall₂ (fun v j => ∀ l ∈ free, v l = if l = j then 1 else 0) free ∧
        ∀ (F : Type) [Field F] (read : α → F), read 0 = 0 → read 1 = 1 →
          LinearIndependent F fun k : Fin nulls.length => fun i => read ((nulls.get k) i)) := by
  refine ⟨A.entries.pivotColumns, A.entries.freeColumns, A.entries.columnSpace,
    A.entries.rowSpace, A.entries.nullSpace, rfl, rfl, rfl, rfl, ?_, ?_, ?_,
    A.entries.forall₂_rowSpace, rfl, A.entries.increasing_freeColumns,
    fun _ => Mat.mem_freeColumns, ?_, ?_⟩
  · rw [rank, result_withReduction, Mat.length_pivotColumns]
  · rw [Mat.length_columnSpace, Mat.length_pivotColumns]
  · rw [Mat.length_rowSpace, Mat.length_pivotColumns]
  · intro hnil
    rw [Mat.nullSpace_eq, if_pos hnil]
  · intro hne
    rw [Mat.nullSpace_eq, if_neg hne]
    refine ⟨A.entries.forall₂_freeSolutions, ?_⟩
    intro F _ read hzero hone
    exact Mat.linearIndependent_freeSolutions hzero hone A.entries

/-- The first column leads three rows, and the last row turns into one that leads nowhere. -/
def smudged : Mat Float 4 4 :=
  .ofFn ![![5e-11, 2e-10, 0 / 0, 0], ![0, 1, 1, 1], ![0, 1, 0 / 0, 2], ![0, 0 / 0, 1 / 0, 3]]

def uneven : Mat Float 2 2 := .ofFn ![![0, 0.1], ![3, 1e300]]

theorem bases_share_pivots_smudged_uneven :
    let A : DenseMatrix Float := ⟨4, 4, Nat.succ_pos 3, Nat.succ_pos 3, smudged⟩
    let B : DenseMatrix Float := ⟨2, 2, Nat.two_pos, Nat.two_pos, uneven⟩
    A.pivotColumns.result = .ok [0, 0, 0] ∧ A.rank.result = .ok 3 ∧
    (∃ (pivots free : List (Fin 4)) (rows nulls : List (Vec Float 4)),
      A.rowSpace.result = .ok (rows.map (·.toArray)) ∧ rows.Forall₂ Vec.LeadsAt pivots ∧
      A.nullSpace.result = .ok (nulls.map (·.toArray)) ∧ free ≠ [] ∧
      nulls.Forall₂ (fun v j => ∀ l ∈ free, v l = if l = j then 1 else 0) free ∧
      LinearIndependent ℚ fun k : Fin nulls.length =>
        fun i => if (nulls.get k) i == 1 then (1 : ℚ) else 0) ∧
    B.pivotColumns.result = .ok [0, 1] ∧ B.nullSpace.result = .ok [#[0, 0]] := by
  intro A B
  have hA : A.pivotColumns.result = .ok [0, 0, 0] := by
    have h : smudged.pivotColumns.map (·.val) = [0, 0, 0] := by decide +kernel
    exact congrArg Except.ok h
  have hB : B.pivotColumns.result = .ok [0, 1] := by
    have h : uneven.pivotColumns.map (·.val) = [0, 1] := by decide +kernel
    exact congrArg Except.ok h
  refine ⟨hA, ?_, ?_, hB, ?_⟩
  · obtain ⟨pivots, _, _, _, _, hpivots, _, _, _, hrank, _⟩ := bases_share_pivots A
    have hvalues : pivots.map (·.val) = [0, 0, 0] := Except.ok.inj (hpivots.symm.trans hA)
    have hlength : pivots.length = 3 := by simpa using congrArg List.length hvalues
    exact hlength ▸ hrank
  · obtain ⟨pivots, free, _, rows, nulls, hpivots, _, hrows, hnulls, _, _, _, hleads, _, _, hfree,
      _, hunits⟩ := bases_share_pivots A
    have hvalues : pivots.map (·.val) = [0, 0, 0] := Except.ok.inj (hpivots.symm.trans hA)
    have hlast : Fin.last 3 ∈ free := by
      rw [hfree, ← List.mem_map_of_injective Fin.val_injective, hvalues]
      decide
    obtain ⟨hunit, hindependent⟩ := hunits (List.ne_nil_of_mem hlast)
    refine ⟨pivots, free, rows, nulls, hrows, hleads, hnulls, List.ne_nil_of_mem hlast, hunit, ?_⟩
    exact hindependent ℚ (fun x => if x == 1 then 1 else 0) (by decide +kernel) (by decide +kernel)
  · obtain ⟨pivots, free, _, _, nulls, hpivots, _, _, hnulls, _, _, _, _, _, _, hfree, hnil, _⟩ :=
      bases_share_pivots B
    have hvalues : pivots.map (·.val) = [0, 1] := Except.ok.inj (hpivots.symm.trans hB)
    have hempty : free = [] := by
      apply List.eq_nil_iff_forall_not_mem.mpr
      intro j hj
      rw [hfree, ← List.mem_map_of_injective Fin.val_injective, hvalues] at hj
      have hj2 : j.val < 2 := j.isLt
      simp only [List.mem_cons, List.not_mem_nil, or_false, not_or] at hj
      omega
    rw [hnulls, hnil hempty]
    rfl

end DenseMatrix

end DenseLinear
