import DenseLinear.Proofs.RowReduction
import DenseLinear.Proofs.UnitColumns

/-!
# The reduced row-echelon form

If nothing but zeros is skipped, the rows from the cursor on are zero as far as the reduction has
come, and the pivots are the first entries of their rows. The scan for leading entries then finds
the pivots again. That each pivot column is a unit column does not depend on what is skipped.
-/

namespace DenseLinear

theorem filterMap_getElem?_range {β : Type} (l : List β) (m : Nat) :
    (List.range m).filterMap (fun i => l[i]?) = l.take m := by
  induction m with
  | zero => simp
  | succ m ih =>
    rw [List.range_succ, List.filterMap_append, ih, List.take_add_one]
    cases h : l[m]? <;> simp [h]

/-- Vectors that are the unit vectors in some of their coordinates. -/
theorem linearIndependent_of_unit_coordinates {F ι κ : Type} [Field F] [DecidableEq ι]
    {v : ι → κ → F} (p : ι → κ) (h : ∀ i k, v i (p k) = if k = i then 1 else 0) :
    LinearIndependent F v := by
  apply LinearIndependent.of_comp (LinearMap.funLeft F F p)
  have hunit : LinearMap.funLeft F F p ∘ v = fun i => Pi.single i 1 := by
    funext i k
    rw [Function.comp_apply, LinearMap.funLeft_apply, h, Pi.single_apply]
  rw [hunit]
  exact Pi.linearIndependent_single_one _ F

namespace Mat

section

variable {α : Type} [Scalar α] {m n : Nat}

theorem leadingColumn?_eq_some_iff {A : Mat α m n} {i : Fin m} {c : Fin n} :
    A.leadingColumn? i = some c ↔ Significant (A i c) ∧ ∀ j < c, ¬Significant (A i j) := by
  have h := List.find?_ofFn_eq_some_of_injective (f := fun j : Fin n => j)
    (p := fun j => decide (Significant (A i j))) (i := c) Function.injective_id
  rw [leadingColumn?, List.finRange, h]
  simp only [decide_eq_true_eq]

theorem leadingColumn?_eq_none_iff {A : Mat α m n} {i : Fin m} :
    A.leadingColumn? i = none ↔ ∀ j, ¬Significant (A i j) := by
  simp [leadingColumn?]

/-- The reduction skips a column only if all entries that it scans there are zero. -/
def SkipsOnlyZeros (A : Mat α m n) : Prop :=
  ∀ c : Fin n,
    (∀ r : Fin m, (A.reductionUpTo c c.isLt.le).cursor ≤ r →
      ¬Significant ((A.reductionUpTo c c.isLt.le).matrix r c)) →
    ∀ r : Fin m, (A.reductionUpTo c c.isLt.le).cursor ≤ r →
      (A.reductionUpTo c c.isLt.le).matrix r c = 0

instance [DecidableEq α] (A : Mat α m n) : Decidable A.SkipsOnlyZeros := by
  unfold SkipsOnlyZeros
  infer_instance

/-- The `i`-th of the columns is one in row `i` and zero in all other rows. -/
def UnitColumns (R : Mat α m n) (cols : List (Fin n)) : Prop :=
  ∀ i c, cols[i]? = some c → ∀ r : Fin m, R r c = if r.val = i then 1 else 0

/-- In the first `k` columns, each row is zero before its pivot, and the rows without a pivot are
zero. -/
structure Staircase (k : Nat) (R : Mat α m n) (cols : List (Fin n)) : Prop where
  left : ∀ (r : Fin m) c, cols[r.val]? = some c → ∀ j < c, R r j = 0
  below : ∀ r : Fin m, cols.length ≤ r → ∀ j : Fin n, j.val < k → R r j = 0

/-- `R` is in reduced row-echelon form, with its pivots in the given columns. -/
structure IsReduced (R : Mat α m n) (cols : List (Fin n)) : Prop where
  length_le : cols.length ≤ m
  increasing : cols.Pairwise (· < ·)
  unit : R.UnitColumns cols
  staircase : R.Staircase n cols

section

variable {R : Mat α m n} {cols : List (Fin n)}

theorem IsReduced.nodup (h : R.IsReduced cols) : cols.Nodup := h.increasing.imp fun hlt => hlt.ne

theorem IsReduced.exists_row (h : R.IsReduced cols) {c : Fin n} (hc : c ∈ cols) :
    ∃ i : Fin m, cols[i.val]? = some c := by
  obtain ⟨k, hk⟩ := List.mem_iff_getElem?.mp hc
  exact ⟨⟨k, (List.getElem?_eq_some_iff.mp hk).1.trans_le h.length_le⟩, hk⟩

/-- A pivot column has its pivot in one row. -/
theorem IsReduced.row_eq (h : R.IsReduced cols) {i k : Nat} {c : Fin n} (hi : cols[i]? = some c)
    (hk : cols[k]? = some c) : i = k :=
  (List.getElem?_inj (List.getElem?_eq_some_iff.mp hi).1 h.nodup).mp (hi.trans hk.symm)

theorem IsReduced.pivot_eq_one (h : R.IsReduced cols) {i : Fin m} {c : Fin n}
    (hc : cols[i.val]? = some c) : R i c = 1 := by
  rw [h.unit i c hc i, if_pos rfl]

theorem IsReduced.eq_zero_of_none (h : R.IsReduced cols) {i : Fin m} (hi : cols[i.val]? = none)
    (j : Fin n) : R i j = 0 :=
  h.staircase.below i (List.getElem?_eq_none_iff.mp hi) j j.isLt

end

end

variable {K : Type} [Field K] [LinearOrder K] {m n : Nat} {R : Mat K m n} {cols : List (Fin n)}

theorem Staircase.pivotOn {c : Fin n} (hs : R.Staircase c cols) (hb : ∀ d ∈ cols, d.val < c)
    (h : cols.length < m) {r : Fin m} (hr : cols.length ≤ r) (hc : R r c ≠ 0) :
    (R.pivotOn ⟨cols.length, h⟩ r c).Staircase (c + 1) (cols ++ [c]) := by
  have hkeep (j : Fin n) (hj : j.val < c) (p : Fin m) :
      (R.pivotOn ⟨cols.length, h⟩ r c) p j = R p j :=
    pivotOn_column_of_zero (hs.below _ le_rfl j hj) (hs.below r hr j hj) c p
  constructor
  · intro p d hd j hj
    rcases getElem?_append_singleton_eq_some.mp hd with hd | ⟨hp, rfl⟩
    · have hdc : d.val < c := hb d (List.mem_of_getElem? hd)
      rw [hkeep j (lt_trans hj hdc)]
      exact hs.left p d hd j hj
    · rw [hkeep j hj]
      exact hs.below p hp.ge j hj
  · intro p hp j hj
    rw [List.length_append, List.length_singleton] at hp
    rcases lt_or_eq_of_lt_succ hj with hlt | rfl
    · rw [hkeep j hlt]
      exact hs.below p (by omega) j hlt
    · have hne : p ≠ ⟨cols.length, h⟩ := by
        intro he
        have hv : p.val = cols.length := congrArg Fin.val he
        omega
      rw [pivotOn_pivot_column R _ r hc, if_neg hne]

theorem Staircase.skip {c : Fin n} (hs : R.Staircase c cols)
    (hz : ∀ r : Fin m, cols.length ≤ r → R r c = 0) : R.Staircase (c + 1) cols := by
  refine ⟨hs.left, ?_⟩
  intro r hr j hj
  rcases lt_or_eq_of_lt_succ hj with hlt | rfl
  · exact hs.below r hr j hlt
  · exact hz r hr

variable [IsStrictOrderedRing K]

theorem reductionUpTo_unitColumns (A : Mat K m n) (k : Nat) (h : k ≤ n) :
    (A.reductionUpTo k h).matrix.UnitColumns (A.reductionUpTo k h).columns := by
  have hunit := reductionUpTo_unitUpToSign (A := A) (zeroLaws_exact K) (fun _ _ _ _ _ => trivial) k h
  intro i c hc r
  split_ifs with hr
  · exact hunit.one r c (hr ▸ hc)
  · exact hunit.zero r i c hc hr

theorem reductionUpTo_staircase {A : Mat K m n} (hA : A.SkipsOnlyZeros) (k : Nat) (h : k ≤ n) :
    (A.reductionUpTo k h).matrix.Staircase k (A.reductionUpTo k h).columns := by
  induction k with
  | zero => exact ⟨fun r c hc => by simp [Reduction.columns, reductionUpTo, afterSteps_zero] at hc,
      fun r _ j hj => absurd hj (Nat.not_lt_zero _)⟩
  | succ k ih =>
    have hs := ih (Nat.le_of_succ_le h)
    have ho := A.reductionUpTo_ordered k (Nat.le_of_succ_le h)
    have hstep : A.reductionUpTo (k + 1) h =
        reduceColumn ⟨k, h⟩ (A.reductionUpTo k (Nat.le_of_succ_le h)) := rfl
    have hzero := hA ⟨k, h⟩
    rw [hstep]
    generalize A.reductionUpTo k (Nat.le_of_succ_le h) = s at hs ho hzero
    rcases reduceColumn_cases ⟨k, h⟩ s with ⟨he, hskip⟩ | ⟨hm, r, hr, hsig, he⟩
    · rw [he]
      exact Staircase.skip (c := ⟨k, h⟩) hs (s.length_columns ▸ hzero hskip)
    · rw [he]
      simp only [← s.length_columns] at hm hr ⊢
      simpa [Reduction.columns] using
        Staircase.pivotOn (c := ⟨k, h⟩) hs ho.bounded hm hr (ne_zero_of_significant hsig)

theorem rref_isReduced {A : Mat K m n} (hA : A.SkipsOnlyZeros) :
    A.rref.IsReduced A.reduction.columns where
  length_le := (Reduction.length_columns _).trans_le (A.reductionUpTo_ordered n le_rfl).cursor_le
  increasing := (A.reductionUpTo_ordered n le_rfl).increasing
  unit := A.reductionUpTo_unitColumns n le_rfl
  staircase := reductionUpTo_staircase hA n le_rfl

/-- The leading entries of a reduced form are its pivots. -/
theorem IsReduced.leadingColumn? (h : R.IsReduced cols) (i : Fin m) :
    R.leadingColumn? i = cols[i.val]? := by
  cases hc : cols[i.val]? with
  | none =>
    apply leadingColumn?_eq_none_iff.mpr
    intro j
    rw [h.eq_zero_of_none hc]
    exact not_significant_zero
  | some c =>
    apply leadingColumn?_eq_some_iff.mpr
    constructor
    · rw [h.pivot_eq_one hc]
      exact significant_one
    · intro j hj
      rw [h.staircase.left i c hc j hj]
      exact not_significant_zero

theorem IsReduced.leadingColumns (h : R.IsReduced cols) : R.leadingColumns = cols := by
  have hmap : (List.finRange m).filterMap (fun i => cols[i.val]?) =
      (List.range m).filterMap (fun i => cols[i]?) := by
    rw [← List.map_coe_finRange_eq_range, List.filterMap_map]
    rfl
  simp only [Mat.leadingColumns, funext h.leadingColumn?]
  rw [hmap, filterMap_getElem?_range, List.take_of_length_le h.length_le]

theorem pivotColumns_eq {A : Mat K m n} (hA : A.SkipsOnlyZeros) :
    A.pivotColumns = A.reduction.columns :=
  (rref_isReduced hA).leadingColumns

/-- A row with an entry that is not zero has a pivot, and its first such entry is at the pivot. -/
theorem IsReduced.pivot_of_leadingEntry (h : R.IsReduced cols) {i : Fin m} {c : Fin n}
    (hc : R.toMatrix.IsLeadingEntry i c) : cols[i.val]? = some c := by
  cases hd : cols[i.val]? with
  | none =>
    exact absurd (h.eq_zero_of_none hd c) hc.2
  | some d =>
    have hone : R i d = 1 := h.pivot_eq_one hd
    rcases lt_trichotomy c d with hlt | rfl | hgt
    · exact absurd (h.staircase.left i d hd c hlt) hc.2
    · rfl
    · exact absurd (hone.symm.trans (hc.1 d hgt)) one_ne_zero

theorem IsReduced.isReducedRowEchelon (h : R.IsReduced cols) :
    R.toMatrix.IsReducedRowEchelon := by
  refine ⟨?_, ?_, ?_⟩
  · intro i p hip j hj
    cases hd : cols[p.val]? with
    | none => exact h.eq_zero_of_none hd j
    | some d =>
      apply h.staircase.left p d hd
      obtain ⟨hp, hpd⟩ := List.getElem?_eq_some_iff.mp hd
      have hi : i.val < cols.length := lt_trans hip hp
      have hlt : cols[i.val] < d := hpd ▸ List.pairwise_iff_getElem.mp h.increasing _ _ hi hp hip
      have hone : R i cols[i.val] = 1 := h.pivot_eq_one (List.getElem?_eq_getElem hi)
      exact lt_of_le_of_lt (not_lt.mp fun hc => one_ne_zero (hone.symm.trans (hj _ hc))) hlt
  · intro i c hc
    exact (h.unit i c (h.pivot_of_leadingEntry hc) i).trans (if_pos rfl)
  · intro i p c hip hc
    exact (h.unit p c (h.pivot_of_leadingEntry hc) i).trans (if_neg (Fin.val_ne_of_ne hip.ne))

end Mat

namespace DenseMatrix

variable {K : Type} [Field K] [LinearOrder K] [IsStrictOrderedRing K]

/-- If only zeros are skipped, the result is in reduced row-echelon form. Its pivots are the
reported ones, and its leading columns and its rank are read off them. -/
theorem rref_reduced_form (A : DenseMatrix K) (hA : A.entries.SkipsOnlyZeros) :
    ∃ (R : Mat K A.height A.width) (pivots : List (Fin A.width × Fin A.height)),
      A.rref.result = .ok (A.withEntries R) ∧
      A.rref.events = pivots.map (fun p => .pivot p.1 p.2) ∧
      R.IsReduced (pivots.map (·.1)) ∧
      R.toMatrix.IsReducedRowEchelon ∧
      A.pivotColumns.result = .ok (pivots.map (·.1.val)) ∧
      A.rank.result = .ok pivots.length := by
  have h := Mat.rref_isReduced hA
  have hcols : A.entries.pivotColumns = A.entries.reduction.columns := h.leadingColumns
  have hrank : A.entries.rank = A.entries.reduction.pivots.length := by
    rw [← Mat.length_pivotColumns, hcols, Reduction.length_columns, Reduction.cursor]
  refine ⟨A.entries.rref, A.entries.reduction.pivots, rfl, events_withReduction A _, h,
    h.isReducedRowEchelon, ?_, ?_⟩
  · simp [pivotColumns, hcols, Reduction.columns]
  · simp [rank, hrank]

/-- The first column is zero, and the pivot of the second is in the second row. -/
def staggered : DenseMatrix ℚ :=
  ⟨4, 4, Nat.succ_pos 3, Nat.succ_pos 3,
    .ofFn ![![0, 0, 2, 4], ![0, 3, 1, 0], ![0, 3, 3, 4], ![0, 6, 4, 4]]⟩

theorem rref_staggered :
    staggered.entries.SkipsOnlyZeros ∧
    staggered.rref.events = [.pivot 1 1, .pivot 2 1] ∧
    ∃ (R : Mat ℚ 4 4) (pivots : List (Fin 4 × Fin 4)),
      staggered.rref.events = pivots.map (fun p => .pivot p.1 p.2) ∧
      R.IsReduced (pivots.map (·.1)) ∧ staggered.rank.result = .ok pivots.length := by
  have hA : staggered.entries.SkipsOnlyZeros := by decide +kernel
  have hevents : staggered.rref.events = [.pivot 1 1, .pivot 2 1] := by decide +kernel
  obtain ⟨R, pivots, _, he, hred, _, _, hrank⟩ := rref_reduced_form staggered hA
  exact ⟨hA, hevents, R, pivots, he, hred, hrank⟩

end DenseMatrix

end DenseLinear
