import DenseLinear.Dense.Reduction
import DenseLinear.Proofs.Storage.Build
import DenseLinear.Storage.Reduction

/-!
# Reduction in storage

Clearing a column is a loop over the rows that changes each row once, so what it reads of a row is as
it was before the loop. The loop over the columns is left as soon as every row has a pivot, after
which no column would change anything.
-/

namespace DenseLinear

variable {α : Type}

namespace Mat

variable {m n : Nat}

/-- A loop that takes a multiple of row `k` from some of the other rows. -/
theorem forRange_eliminate [Sub α] [Mul α] {A : Mat α m n} {k : Fin m} {target : Fin m → Prop}
    [DecidablePred target] (hk : ¬target k) (factor : Fin m → α) {start : Nat} (hstart : start ≤ m)
    (hsame : ∀ r : Fin m, r.val < start → ¬target r)
    {body : Nat → Stored α → Checked (Stored α)}
    (hbody : ∀ (r : Fin m) (N : Mat α m n), start ≤ r → (∀ j, N r j = A r j) →
      body r N.stored = if target r then N.stored.subRowMultiple r k (factor r)
        else .ok N.stored) :
    forRange start m body A.stored = .ok (A.eliminate k target factor).stored := by
  have hkeep (r : Fin m) (hr : ¬target r) (j : Fin n) :
      (A.eliminate k target factor) r j = A r j := by
    rw [eliminate_apply, if_neg hr]
  apply forRange_rows hstart le_rfl
  · intro r j hr
    exact (hkeep r (hsame r (by omega)) j).symm
  · intro r hr _
    have hrow (j : Fin n) : (A.blendRows (A.eliminate k target factor) r) r j = A r j :=
      blend_of_le le_rfl
    have hsource (j : Fin n) : (A.blendRows (A.eliminate k target factor) r) k j = A k j :=
      blend_eq (hkeep k hk j).symm
    rw [hbody r _ hr hrow]
    split_ifs with ht
    · rw [subRowMultiple_stored]
      congr 2
      ext p j
      rw [eliminate_apply]
      rcases eq_or_ne p r with rfl | hp
      · rw [if_pos rfl, hsource, hrow, blend_of_lt (Nat.lt_succ_self _), eliminate_apply,
          if_pos ht]
      · rw [if_neg hp, blend_succ_of_ne (Fin.val_ne_of_ne hp)]
    · congr 2
      ext p j
      rcases eq_or_ne p r with rfl | hp
      · rw [hrow, blend_of_lt (Nat.lt_succ_self _), hkeep p ht]
      · rw [blend_succ_of_ne (Fin.val_ne_of_ne hp)]

end Mat

theorem foldlM_eq_ok {ε β σ τ : Type} {f : τ → β → Except ε τ} {g : σ → β → σ} (view : σ → τ)
    {l : List β} (h : ∀ b ∈ l, ∀ s, f (view s) b = .ok (view (g s b))) (s : σ) :
    l.foldlM f (view s) = .ok (view (l.foldl g s)) := by
  induction l generalizing s with
  | nil => rfl
  | cons b l ih =>
    rw [List.foldlM_cons, h b List.mem_cons_self, Checked.ok_bind, List.foldl_cons]
    exact ih (fun c hc => h c (List.mem_cons_of_mem b hc)) _

theorem findM?_eq_ok {ε β : Type} {f : β → Except ε Bool} {p : β → Bool} {l : List β}
    (h : ∀ b ∈ l, f b = .ok (p b)) : l.findM? f = .ok (l.find? p) := by
  induction l with
  | nil => rfl
  | cons b l ih =>
    rw [List.findM?, h b List.mem_cons_self, Checked.ok_bind, List.find?]
    cases p b with
    | true => rfl
    | false => exact ih fun c hc => h c (List.mem_cons_of_mem b hc)

/-- A search from `start` on, among all indices. -/
theorem find?_range'_eq {n start : Nat} {p : Fin n → Bool} {q : Nat → Bool}
    (h : ∀ i : Fin n, q i = p i) :
    (List.range' start (n - start)).find? q =
      ((List.finRange n).find? fun i => decide (start ≤ i.val) && p i).map Fin.val := by
  have hsplit : List.range n = List.range (min start n) ++ List.range' start (n - start) := by
    rw [List.range_eq_range', List.range_eq_range']
    rcases le_total start n with hle | hle
    · have happend := List.range'_append_1 (s := 0) (m := start) (n := n - start)
      rw [Nat.zero_add, Nat.add_sub_cancel' hle] at happend
      rw [Nat.min_eq_left hle, happend]
    · simp [Nat.min_eq_right hle, Nat.sub_eq_zero_of_le hle]
  have hall : ((List.finRange n).find? fun i => decide (start ≤ i.val) && p i).map Fin.val =
      (List.range n).find? fun i => decide (start ≤ i) && q i := by
    rw [← List.map_coe_finRange_eq_range, List.find?_map]
    congr 2
    funext i
    simp only [Function.comp_apply, h]
  have hbefore : (List.range (min start n)).find? (fun i => decide (start ≤ i) && q i) = none := by
    simp only [List.find?_eq_none, List.mem_range]
    intro i hi
    have hlt : ¬start ≤ i := by omega
    simp [hlt]
  rw [hall, hsplit, List.find?_append, hbefore, Option.none_or]
  apply List.find?_congr
  intro i hi
  have hle : start ≤ i := (List.mem_range'_1.mp hi).1
  simp [hle]

namespace Vec

variable {n : Nat} (x : Vec α n) (p : α → Bool)

theorem toList_toArray : x.toArray.toList = (List.finRange n).map x.entry := by
  rw [toArray_eq_ofFn, Array.toList_ofFn, List.ofFn_eq_map]

theorem any_toArray : x.toArray.any p = (List.finRange n).any fun j => p (x j) := by
  rw [← Array.any_toList, toList_toArray, List.any_map]
  rfl

theorem findIdx?_toArray :
    x.toArray.findIdx? p = ((List.finRange n).find? fun j => p (x j)).map Fin.val := by
  have hlist := List.findIdx?_toArray p x.toArray.toList
  rw [Array.toArray_toList, toList_toArray, List.findIdx?_map] at hlist
  rw [hlist]
  cases hj : (List.finRange n).find? fun j => p (x j) with
  | none =>
    rw [List.find?_eq_none] at hj
    rw [Option.map_none, List.findIdx?_eq_none_iff]
    intro j hmem
    exact Bool.eq_false_iff.mpr (hj j hmem)
  | some j =>
    have hfirst := List.find?_ofFn_eq_some_of_injective (f := fun j : Fin n => j)
      (p := fun j => p (x j)) (i := j) Function.injective_id
    rw [List.finRange, hfirst] at hj
    rw [Option.map_some, List.findIdx?_eq_some_iff_getElem]
    refine ⟨by rw [List.length_finRange]; exact j.isLt, ?_, ?_⟩
    · simpa using hj.1
    · intro i hi
      simpa using hj.2 ⟨i, by omega⟩ hi

end Vec

/-- How a run of the loop ends: with its state, or left early with the matrix alone. -/
def Reduction.outcome {m n : Nat} (s : Reduction α m n) : Except (Exit (Stored α)) (Stored α × Nat) :=
  if s.cursor < m then .ok (s.matrix.stored, s.cursor) else .error (.answer s.matrix.stored)

namespace Mat

variable [Scalar α] {m n : Nat}

theorem pivotRow?_stored (A : Mat α m n) (cursor : Nat) (c : Fin n) :
    A.stored.pivotRow? cursor c = .ok ((A.pivotRow? cursor c).map Fin.val) := by
  let q (r : Nat) : Bool := if h : r < m then decide (Significant (A ⟨r, h⟩ c)) else false
  have hq (r : Fin m) : q r = decide (Significant (A r c)) := dif_pos r.isLt
  rw [Stored.pivotRow?, height_stored, findM?_eq_ok (p := q), find?_range'_eq hq, pivotRow?]
  · simp only [Bool.decide_and]
  · intro r hr
    have hlt : r < m := by
      obtain ⟨hle, hlt⟩ := List.mem_range'_1.mp hr
      omega
    rw [A.entry_stored ⟨r, hlt⟩ c, Checked.ok_bind, hq ⟨r, hlt⟩]
    rfl

theorem clearColumn_stored (A : Mat α m n) (k : Fin m) (c : Fin n) :
    A.stored.clearColumn k c = .ok (A.eliminate k (· ≠ k) fun r => A r c).stored := by
  apply forRange_eliminate (not_not.mpr rfl) _ (Nat.zero_le m)
  · intro r hr
    omega
  · intro r N _ hN
    rw [entry_stored, Checked.ok_bind, hN c, ite_not]
    exact if_congr Fin.ext_iff.symm rfl rfl

theorem pivotOn_stored (A : Mat α m n) (k r : Fin m) (c : Fin n) :
    A.stored.pivotOn k r c = .ok (A.pivotOn k r c).stored := by
  rw [Stored.pivotOn, swapRows_stored, Checked.ok_bind, entry_stored, Checked.ok_bind,
    divRow_stored, Checked.ok_bind, clearColumn_stored]
  rfl

theorem reduceColumn_stored (c : Fin n) (s : Reduction α m n) (hs : s.cursor < m) :
    Stored.reduceColumn c (s.matrix.stored, s.cursor) = (reduceColumn c s).outcome := by
  rw [Stored.reduceColumn, pivotRow?_stored, reduceColumn, dif_pos hs]
  cases s.matrix.pivotRow? s.cursor c with
  | none => exact (if_pos hs).symm
  | some r =>
    have hpivot := s.matrix.pivotOn_stored ⟨s.cursor, hs⟩ r c
    simp only [Option.map_some, Checked.lift_exit_ok, Checked.ok_bind, hpivot]
    generalize s.matrix.pivotOn ⟨s.cursor, hs⟩ r c = N
    unfold Reduction.outcome Reduction.cursor
    rw [List.length_append, List.length_singleton]
    by_cases hlast : N.stored.height ≤ s.pivots.length + 1
    · have hnot : ¬s.pivots.length + 1 < m := not_lt.mpr hlast
      rw [if_pos hlast, if_neg hnot]
    · have hlt : s.pivots.length + 1 < m := not_le.mp hlast
      rw [if_neg hlast, if_pos hlt]
      rfl

theorem forRange_reduceColumn (hm : 0 < m) (A : Mat α m n) (k : Nat) (h : k ≤ n) :
    forRange 0 k Stored.reduceColumn (A.stored, 0) = (A.reductionUpTo k h).outcome := by
  induction k with
  | zero => exact (forRange_of_le le_rfl).trans (if_pos hm).symm
  | succ k ih =>
    have hsucc : A.reductionUpTo (k + 1) h =
        reduceColumn ⟨k, h⟩ (A.reductionUpTo k (Nat.le_of_succ_le h)) := rfl
    rw [forRange_succ (Nat.zero_le k), ih (Nat.le_of_succ_le h), hsucc]
    by_cases hs : (A.reductionUpTo k (Nat.le_of_succ_le h)).cursor < m
    · rw [Reduction.outcome, if_pos hs]
      exact reduceColumn_stored ⟨k, h⟩ _ hs
    · rw [reduceColumn, dif_neg hs, Reduction.outcome, if_neg hs, Checked.error_bind]

theorem rref_stored (hm : 0 < m) (A : Mat α m n) : A.stored.rref = .ok A.rref.stored := by
  rw [Stored.rref, width_stored, forRange_reduceColumn hm A n le_rfl, Reduction.outcome]
  split_ifs
  · rfl
  · rfl

section

variable (hn : 0 < n) (A : Mat α m n)
include hn

theorem leadingColumns_stored :
    A.stored.leadingColumns = .ok (A.leadingColumns.map Fin.val) := by
  rw [Stored.leadingColumns, rows_stored A hn, Checked.ok_bind, Checked.pure_eq_ok,
    List.filterMap_map, leadingColumns, List.map_filterMap]
  congr 2
  funext i
  rw [Function.comp_apply, Vec.findIdx?_toArray]
  rfl

theorem significantRows_stored :
    A.stored.significantRows = .ok (A.significantRows.map fun i => (A.row i).toArray) := by
  rw [Stored.significantRows, rows_stored A hn, Checked.ok_bind, Checked.pure_eq_ok,
    List.filter_map, significantRows]
  congr 3
  funext i
  rw [Function.comp_apply, Vec.any_toArray]
  rfl

end

theorem length_leadingColumns_le (A : Mat α m n) : A.leadingColumns.length ≤ m := by
  rw [length_leadingColumns, significantRows]
  exact (List.length_filter_le _ _).trans_eq (List.length_finRange)

theorem zipIdx_map_val {leads : List (Fin n)} (h : leads.length ≤ m) :
    (leads.map Fin.val).zipIdx =
      (leads.zip (List.finRange m)).map fun p => (p.1.val, p.2.val) := by
  apply List.ext_getElem
  · simp [h]
  · intro i hi hi'
    simp

theorem freeSolution_stored (R : Mat α m n) {leads : List (Fin n)} (h : leads.length ≤ m)
    (j : Fin n) :
    R.stored.freeSolution n (leads.map Fin.val) j = .ok (R.freeSolution leads j).toArray := by
  rw [Stored.freeSolution, ← Vec.toArray_replicate, Vec.store_toArray, Checked.ok_bind, zipIdx_map_val h,
    List.foldlM_map]
  apply foldlM_eq_ok Vec.toArray
  intro p _ v
  rw [entry_stored, Checked.ok_bind, Vec.store_toArray]

section

variable (hm : 0 < m) (hn : 0 < n) (A : Mat α m n)
include hm hn

theorem pivotColumns_stored : A.stored.pivotColumns = .ok (A.pivotColumns.map Fin.val) := by
  rw [Stored.pivotColumns, rref_stored hm, Checked.ok_bind, leadingColumns_stored hn]
  rfl

theorem rank_stored : A.stored.rank = .ok A.rank := by
  rw [Stored.rank, rref_stored hm, Checked.ok_bind, significantRows_stored hn, Checked.ok_bind,
    Checked.pure_eq_ok, List.length_map]
  rfl

theorem nullSpace_stored : A.stored.nullSpace = .ok (A.nullSpace.map Vec.toArray) := by
  have hfree : (List.range n).filter (fun j => !(A.rref.leadingColumns.map Fin.val).contains j) =
      ((List.finRange n).filter (· ∉ A.rref.leadingColumns)).map Fin.val := by
    rw [← List.map_coe_finRange_eq_range, List.filter_map]
    congr 2
    funext j
    simp [Fin.val_inj]
  have hbasis (free : List (Fin n)) :
      (free.map Fin.val).mapM (A.rref.stored.freeSolution n (A.rref.leadingColumns.map Fin.val)) =
        .ok ((free.map (A.rref.freeSolution A.rref.leadingColumns)).map Vec.toArray) := by
    rw [List.mapM_map, List.map_map]
    apply mapM_eq_ok
    intro j _
    exact A.rref.freeSolution_stored A.rref.length_leadingColumns_le j
  rw [Stored.nullSpace, rref_stored hm, Checked.ok_bind, leadingColumns_stored hn,
    Checked.ok_bind, width_stored, hfree, hbasis, Checked.ok_bind, nullSpace]
  cases (List.finRange n).filter (· ∉ A.rref.leadingColumns) with
  | nil => simp [← Vec.toArray_replicate]
  | cons j free => simp

theorem columnSpace_stored : A.stored.columnSpace = .ok (A.columnSpace.map Vec.toArray) := by
  rw [Stored.columnSpace, rref_stored hm, Checked.ok_bind, leadingColumns_stored hn,
    Checked.ok_bind, List.mapM_map, columnSpace, List.map_map]
  apply mapM_eq_ok
  intro j _
  exact A.column_stored j

theorem rowSpace_stored : A.stored.rowSpace = .ok (A.rowSpace.map Vec.toArray) := by
  rw [Stored.rowSpace, rref_stored hm, Checked.ok_bind, significantRows_stored hn, rowSpace,
    List.map_map]
  rfl

end

end Mat

end DenseLinear
