import DenseLinear.Proofs.RepeatedReduction

/-!
# The row space

Row operations keep the linear combinations of the rows, and a reduced form is determined by them:
its pivot columns are those in which a combination can have its first entry that is not zero, and
a combination is determined by its entries in the pivot columns. So two matrices of one size that
are reduced without skipping more than zeros come to the same reduced form exactly if they have the
same row space, whatever rows their pivots were found in.
-/

namespace DenseLinear

namespace Mat

variable {K : Type} [Field K] {m n : Nat} {A B : Mat K m n} {v w : Fin n → K}

def rowSpan (A : Mat K m n) : Submodule K (Fin n → K) := Submodule.span K (Set.range A.entry)

theorem row_mem_rowSpan (A : Mat K m n) (i : Fin m) : A.entry i ∈ A.rowSpan :=
  Submodule.subset_span ⟨i, rfl⟩

theorem mem_rowSpan_iff : v ∈ A.rowSpan ↔ ∃ c : Fin m → K, ∀ j, v j = ∑ p, c p * A p j := by
  rw [rowSpan, Submodule.mem_span_range_iff_exists_fun]
  refine exists_congr fun c => ?_
  rw [funext_iff]
  refine forall_congr' fun j => ?_
  rw [eq_comm, Finset.sum_apply]
  rfl

theorem rowSpan_le_iff : A.rowSpan ≤ B.rowSpan ↔ ∀ i, A.entry i ∈ B.rowSpan :=
  Submodule.span_le.trans Set.range_subset_iff

section

variable (A : Mat K m n)

theorem rowSpan_permute (σ : Equiv.Perm (Fin m)) :
    (ofFn fun i => A (σ i)).rowSpan = A.rowSpan := by
  have hrows : (ofFn fun i => A (σ i)).entry = A.entry ∘ σ := by
    funext i j
    exact entry_ofFn _ _ _
  rw [rowSpan, rowSpan, hrows, σ.surjective.range_comp]

/-- A row may be replaced by a combination in which it can be told from the other rows. -/
theorem rowSpan_setRow {i : Fin m} {f : Fin n → K} (hf : f ∈ A.rowSpan)
    (hi : A.entry i ∈ (A.setRow i f).rowSpan) : (A.setRow i f).rowSpan = A.rowSpan := by
  have hself : (A.setRow i f).entry i = f := by
    funext j
    rw [setRow_apply, if_pos rfl]
  have hother (r : Fin m) (h : r ≠ i) : (A.setRow i f).entry r = A.entry r := by
    funext j
    rw [setRow_apply, if_neg h]
  apply le_antisymm
  · rw [rowSpan_le_iff]
    intro r
    by_cases h : r = i
    · rwa [h, hself]
    · rw [hother r h]
      exact A.row_mem_rowSpan r
  · rw [rowSpan_le_iff]
    intro r
    by_cases h : r = i
    · rwa [h]
    · rw [← hother r h]
      exact row_mem_rowSpan _ r

theorem rowSpan_scaleRow (i : Fin m) {c : K} (hc : c ≠ 0) :
    (A.setRow i (c • A.entry i)).rowSpan = A.rowSpan := by
  apply rowSpan_setRow
  · exact Submodule.smul_mem _ c (A.row_mem_rowSpan i)
  · have hscaled := row_mem_rowSpan (A.setRow i (c • A.entry i)) i
    have hrow : c⁻¹ • (A.setRow i (c • A.entry i)).entry i = A.entry i := by
      funext j
      simp [hc]
    have h := Submodule.smul_mem _ c⁻¹ hscaled
    rwa [hrow] at h

theorem rowSpan_addRow {i k : Fin m} (hik : i ≠ k) (c : K) :
    (A.setRow i (A.entry i + c • A.entry k)).rowSpan = A.rowSpan := by
  apply rowSpan_setRow
  · exact Submodule.add_mem _ (A.row_mem_rowSpan i)
      (Submodule.smul_mem _ c (A.row_mem_rowSpan k))
  · have hsum := row_mem_rowSpan (A.setRow i (A.entry i + c • A.entry k)) i
    have hother := row_mem_rowSpan (A.setRow i (A.entry i + c • A.entry k)) k
    have hrow : (A.setRow i (A.entry i + c • A.entry k)).entry i -
        c • (A.setRow i (A.entry i + c • A.entry k)).entry k = A.entry i := by
      funext j
      simp [hik.symm]
    have h := Submodule.sub_mem _ hsum (Submodule.smul_mem _ c hother)
    rwa [hrow] at h

end

variable [LinearOrder K] {R S : Mat K m n} {cols cols' : List (Fin n)}

theorem RowEquivalent.rowSpan_eq (h : RowEquivalent A B) : A.rowSpan = B.rowSpan := by
  apply le_antisymm
  · rw [rowSpan_le_iff]
    intro i
    exact mem_rowSpan_iff.mpr (h.symm.exists_combination i)
  · rw [rowSpan_le_iff]
    intro i
    exact mem_rowSpan_iff.mpr (h.exists_combination i)

/-- The coefficient of a pivot row in a combination is the entry in the pivot column. -/
theorem IsReduced.eq_sum_of_mem_rowSpan (h : R.IsReduced cols) (hv : v ∈ R.rowSpan) (j : Fin n) :
    v j = ∑ p : Fin m, (cols[p.val]?).elim 0 v * R p j := by
  obtain ⟨c, hc⟩ := mem_rowSpan_iff.mp hv
  rw [hc j]
  apply Finset.sum_congr rfl
  intro p _
  cases hd : cols[p.val]? with
  | none => rw [h.eq_zero_of_none hd, mul_zero, mul_zero]
  | some d =>
    have hcoefficient : v d = c p := by
      have hterm (q : Fin m) : c q * R q d = if q = p then c q else 0 := by
        rw [h.unit p d hd q, mul_ite, mul_one, mul_zero]
        exact if_congr Fin.ext_iff.symm rfl rfl
      rw [hc d, Finset.sum_congr rfl fun q _ => hterm q, Finset.sum_ite_eq',
        if_pos (Finset.mem_univ p)]
    rw [Option.elim_some, hcoefficient]

/-- A combination of the rows of a reduced form is determined by its entries in the pivot
columns. -/
theorem IsReduced.eq_of_mem_rowSpan (h : R.IsReduced cols) (hv : v ∈ R.rowSpan)
    (hw : w ∈ R.rowSpan) (heq : ∀ c ∈ cols, v c = w c) : v = w := by
  funext j
  rw [h.eq_sum_of_mem_rowSpan hv, h.eq_sum_of_mem_rowSpan hw]
  apply Finset.sum_congr rfl
  intro p _
  cases hd : cols[p.val]? with
  | none => rfl
  | some d => rw [Option.elim_some, Option.elim_some, heq d (List.mem_of_getElem? hd)]

/-- The pivot columns are those in which a combination of the rows can have its first entry that is
not zero. -/
theorem IsReduced.mem_columns_iff (h : R.IsReduced cols) (c : Fin n) :
    c ∈ cols ↔ ∃ v ∈ R.rowSpan, v c ≠ 0 ∧ ∀ j < c, v j = 0 := by
  constructor
  · intro hc
    obtain ⟨i, hi⟩ := h.exists_row hc
    refine ⟨R.entry i, R.row_mem_rowSpan i, ?_, h.staircase.left i c hi⟩
    rw [h.pivot_eq_one hi]
    exact one_ne_zero
  · rintro ⟨v, hv, hne, hzero⟩
    by_contra hc
    apply hne
    rw [h.eq_sum_of_mem_rowSpan hv]
    apply Finset.sum_eq_zero
    intro p _
    cases hd : cols[p.val]? with
    | none => rw [Option.elim_none, zero_mul]
    | some d =>
      rw [Option.elim_some]
      rcases lt_trichotomy d c with hlt | rfl | hgt
      · rw [hzero d hlt, zero_mul]
      · exact absurd (List.mem_of_getElem? hd) hc
      · rw [h.staircase.left p d hd c hgt, mul_zero]

theorem IsReduced.columns_eq (hR : R.IsReduced cols) (hS : S.IsReduced cols')
    (h : R.rowSpan = S.rowSpan) : cols = cols' := by
  have hperm : cols.Perm cols' := by
    apply (List.perm_ext_iff_of_nodup hR.nodup hS.nodup).mpr
    intro c
    rw [hR.mem_columns_iff, hS.mem_columns_iff, h]
  exact hperm.eq_of_pairwise' hR.increasing hS.increasing

/-- The reduced form with a given row space is unique. -/
theorem IsReduced.eq_of_rowSpan_eq (hR : R.IsReduced cols) (hS : S.IsReduced cols')
    (h : R.rowSpan = S.rowSpan) : R = S := by
  obtain rfl := hR.columns_eq hS h
  have hrow (i : Fin m) : R.entry i = S.entry i := by
    apply hR.eq_of_mem_rowSpan (R.row_mem_rowSpan i) (h ▸ S.row_mem_rowSpan i)
    intro c hc
    obtain ⟨k, hk⟩ := hR.exists_row hc
    rw [hR.unit k c hk, hS.unit k c hk]
  ext i j
  exact congrFun (hrow i) j

variable [IsStrictOrderedRing K]

theorem rowSpan_rref (A : Mat K m n) : A.rref.rowSpan = A.rowSpan :=
  A.rref_rowEquivalent.rowSpan_eq.symm

theorem rref_eq_iff (hA : A.SkipsOnlyZeros) (hB : B.SkipsOnlyZeros) :
    A.rref = B.rref ↔ A.rowSpan = B.rowSpan := by
  rw [← A.rowSpan_rref, ← B.rowSpan_rref]
  constructor
  · exact congrArg rowSpan
  · exact (rref_isReduced hA).eq_of_rowSpan_eq (rref_isReduced hB)

end Mat

namespace DenseMatrix

variable {K : Type} [Field K] [LinearOrder K] [IsStrictOrderedRing K]

/-- Two matrices of one size whose reductions skip only zeros have the same reduced form exactly if
they have the same row space. So the reduced form does not change when rows are permuted, a row is
scaled, or a multiple of one row is added to another. -/
theorem rref_eq_iff_rowSpan_eq (A : DenseMatrix K) (hA : A.entries.SkipsOnlyZeros) :
    (∀ B : Mat K A.height A.width, B.SkipsOnlyZeros →
      (A.rref.result = (A.withEntries B).rref.result ↔ A.entries.rowSpan = B.rowSpan)) ∧
    (∀ σ : Equiv.Perm (Fin A.height), let B := .ofFn fun i => A.entries (σ i)
      B.SkipsOnlyZeros → A.rref.result = (A.withEntries B).rref.result) ∧
    (∀ i (c : K), c ≠ 0 → let B := A.entries.setRow i fun j => c * A.entries i j
      B.SkipsOnlyZeros → A.rref.result = (A.withEntries B).rref.result) ∧
    ∀ i k (c : K), i ≠ k →
      let B := A.entries.setRow i fun j => A.entries i j + c * A.entries k j
      B.SkipsOnlyZeros → A.rref.result = (A.withEntries B).rref.result := by
  have hiff (B : Mat K A.height A.width) (hB : B.SkipsOnlyZeros) :
      A.rref.result = (A.withEntries B).rref.result ↔ A.entries.rowSpan = B.rowSpan := by
    rw [result_rref, result_rref, Except.ok.injEq, ← Mat.rref_eq_iff hA hB]
    exact withEntries_inj
  refine ⟨hiff, ?_, ?_, ?_⟩
  · intro σ B hB
    exact (hiff B hB).mpr (A.entries.rowSpan_permute σ).symm
  · intro i c hc B hB
    exact (hiff B hB).mpr (A.entries.rowSpan_scaleRow i hc).symm
  · intro i k c hik B hB
    exact (hiff B hB).mpr (A.entries.rowSpan_addRow hik c).symm

/-- The first column of the first row has no pivot, and the third row is the sum of the others. -/
def planar : Mat ℚ 3 3 := .ofFn ![![0, 2, 4], ![1, 1, 1], ![1, 3, 5]]

def recombined : Mat ℚ 3 3 := .ofFn ![![2, 2, 2], ![3, 5, 7], ![0, 1, 2]]

/-- The last column of `planar` is out of the plane. -/
def tilted : Mat ℚ 3 3 := .ofFn ![![0, 2, 5], ![1, 1, 1], ![1, 3, 6]]

theorem rref_planar_recombined :
    let A : DenseMatrix ℚ := ⟨3, 3, Nat.succ_pos 2, Nat.succ_pos 2, planar⟩
    planar.SkipsOnlyZeros ∧ recombined.SkipsOnlyZeros ∧ tilted.SkipsOnlyZeros ∧
    planar.rowSpan = recombined.rowSpan ∧ planar.rowSpan ≠ tilted.rowSpan ∧
    A.rref.result = (A.withEntries recombined).rref.result ∧
    A.rref.result ≠ (A.withEntries tilted).rref.result := by
  have hplanar : planar.SkipsOnlyZeros := by decide +kernel
  have hrecombined : recombined.SkipsOnlyZeros := by decide +kernel
  have htilted : tilted.SkipsOnlyZeros := by decide +kernel
  have hR : planar.rref = .ofFn ![![1, 0, -1], ![0, 1, 2], ![0, 0, 0]] ∧
      recombined.rref = .ofFn ![![1, 0, -1], ![0, 1, 2], ![0, 0, 0]] ∧
      tilted.rref ≠ .ofFn ![![1, 0, -1], ![0, 1, 2], ![0, 0, 0]] := by decide +kernel
  have hspan : planar.rowSpan = recombined.rowSpan :=
    (Mat.rref_eq_iff hplanar hrecombined).mp (hR.1.trans hR.2.1.symm)
  have hspan' : planar.rowSpan ≠ tilted.rowSpan := by
    intro h
    exact hR.2.2 (((Mat.rref_eq_iff hplanar htilted).mpr h).symm.trans hR.1)
  intro A
  obtain ⟨hiff, _⟩ := rref_eq_iff_rowSpan_eq A hplanar
  exact ⟨hplanar, hrecombined, htilted, hspan, hspan', (hiff recombined hrecombined).mpr hspan,
    mt (hiff tilted htilted).mp hspan'⟩

end DenseMatrix

end DenseLinear
