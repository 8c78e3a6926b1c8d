import DenseLinear.Dense.Access
import DenseLinear.Proofs.EchelonForm

/-!
# Reducing again

A reduced form is reduced again to itself exactly if the second reduction finds its pivots in the
columns of the first. It finds those, as each is a unit column. It may find others: an entry that
was skipped as too small is divided by later pivots, and may have grown by then.
-/

namespace DenseLinear

theorem getElem?_eq_some_of_initial {β : Type} {l l' : List β} (h : l <+: l') {i : Nat} {b : β}
    (hb : l[i]? = some b) : l'[i]? = some b := by
  obtain ⟨t, rfl⟩ := h
  rw [List.getElem?_append_left (List.getElem?_eq_some_iff.mp hb).1, hb]

namespace Mat

section

variable {α : Type} [Scalar α] {m n : Nat}

theorem reductionUpTo_succ (A : Mat α m n) (c : Fin n) :
    A.reductionUpTo (c + 1) c.isLt = reduceColumn c (A.reductionUpTo c c.isLt.le) := rfl

theorem prefix_columns_reduceColumn (c : Fin n) (s : Reduction α m n) :
    s.columns <+: (reduceColumn c s).columns := by
  rcases reduceColumn_cases c s with ⟨he, _⟩ | ⟨_, r, _, _, he⟩
  · rw [he]
  · rw [he, Reduction.columns, Reduction.columns, List.map_append]
    exact List.prefix_append _ _

/-- No pivot is given up. -/
theorem prefix_columns_reductionUpTo (A : Mat α m n) {j k : Nat} (hjk : j ≤ k) (hk : k ≤ n) :
    (A.reductionUpTo j (hjk.trans hk)).columns <+: (A.reductionUpTo k hk).columns := by
  induction k, hjk using Nat.le_induction with
  | base => exact List.prefix_rfl
  | succ k _ ih => exact (ih (Nat.le_of_succ_le hk)).trans (prefix_columns_reduceColumn ⟨k, hk⟩ _)

/-- The pivot columns found up to some point are those before it. -/
theorem mem_columns_reductionUpTo_iff (A : Mat α m n) {c : Fin n} {k : Nat} (hk : k ≤ n) :
    c ∈ (A.reductionUpTo k hk).columns ↔ c ∈ A.reduction.columns ∧ c.val < k := by
  constructor
  · intro hc
    exact ⟨(A.prefix_columns_reductionUpTo hk le_rfl).subset hc,
      (A.reductionUpTo_ordered k hk).bounded c hc⟩
  · rintro ⟨hc, hck⟩
    have hback (l : Nat) (hkl : k ≤ l) (hl : l ≤ n) (hc : c ∈ (A.reductionUpTo l hl).columns) :
        c ∈ (A.reductionUpTo k hk).columns := by
      induction l, hkl using Nat.le_induction with
      | base => exact hc
      | succ l hkl ih =>
        apply ih (Nat.le_of_succ_le hl)
        rw [A.reductionUpTo_succ ⟨l, hl⟩] at hc
        rcases reduceColumn_cases ⟨l, hl⟩ (A.reductionUpTo l (Nat.le_of_succ_le hl)) with
          ⟨he, _⟩ | ⟨_, r, _, _, he⟩
        · rwa [he] at hc
        · rw [he, Reduction.columns, List.map_append] at hc
          rcases List.mem_append.mp hc with hc | hc
          · exact hc
          · have hcl : c.val = l := congrArg Fin.val (List.mem_singleton.mp hc)
            omega
    exact hback n hk le_rfl hc

/-- A column without a significant entry from the cursor on is skipped; any other one becomes the
next pivot column. -/
theorem reductionUpTo_succ_cases (A : Mat α m n) (c : Fin n) :
    (c ∉ A.reduction.columns ∧
      A.reductionUpTo (c + 1) c.isLt = A.reductionUpTo c c.isLt.le ∧
      ∀ r : Fin m, (A.reductionUpTo c c.isLt.le).cursor ≤ r →
        ¬Significant ((A.reductionUpTo c c.isLt.le).matrix r c)) ∨
    (A.reduction.columns[(A.reductionUpTo c c.isLt.le).cursor]? = some c ∧
      (A.reductionUpTo (c + 1) c.isLt).columns = (A.reductionUpTo c c.isLt.le).columns ++ [c] ∧
      ∃ r : Fin m, (A.reductionUpTo c c.isLt.le).cursor ≤ r ∧
        Significant ((A.reductionUpTo c c.isLt.le).matrix r c)) := by
  have hmem := A.mem_columns_reductionUpTo_iff (c := c) c.isLt
  have hnot := mt (A.mem_columns_reductionUpTo_iff (c := c) c.isLt.le).mp fun h => lt_irrefl _ h.2
  have hkept := A.prefix_columns_reductionUpTo c.isLt le_rfl
  rw [reductionUpTo_succ] at hmem hkept ⊢
  generalize A.reductionUpTo c c.isLt.le = s at hmem hnot hkept ⊢
  rcases reduceColumn_cases c s with ⟨he, hskip⟩ | ⟨_, r, hr, hsig, he⟩
  · rw [he] at hmem ⊢
    exact .inl ⟨fun hc => hnot (hmem.mpr ⟨hc, Nat.lt_succ_self _⟩), rfl, hskip⟩
  · have hcolumns : (reduceColumn c s).columns = s.columns ++ [c] := by
      rw [he, Reduction.columns, List.map_append]
      rfl
    refine .inr ⟨?_, hcolumns, r, hr, hsig⟩
    apply getElem?_eq_some_of_initial hkept
    rw [hcolumns, ← s.length_columns, List.getElem?_concat_length]

/-- What the reduction skipped is still not significant in its result. -/
def KeepsSkipped (A : Mat α m n) : Prop :=
  ∀ c : Fin n, c ∉ A.reduction.columns →
    ∀ r : Fin m, (A.reductionUpTo c c.is_le').cursor ≤ r → ¬Significant (A.rref r c)

instance (A : Mat α m n) : Decidable A.KeepsSkipped :=
  decidable_of_iff (∀ c : Fin n, A.reduction.columns.contains c = false →
    ∀ r : Fin m, (A.reductionUpTo c c.is_le').cursor ≤ r → ¬Significant (A.rref r c))
    (by simp [KeepsSkipped])

/-- After a column was skipped the matrix stays as it is until the next pivot, if there is one. -/
theorem reductionUpTo_eq_or_exists_pivot (A : Mat α m n) {j k : Nat} (hjk : j ≤ k) (hk : k ≤ n) :
    let s := A.reductionUpTo j (hjk.trans hk)
    A.reductionUpTo k hk = s ∨
      ∃ c, (A.reductionUpTo k hk).columns[s.cursor]? = some c ∧
        ∃ r : Fin m, s.cursor ≤ r ∧ Significant (s.matrix r c) := by
  intro s
  induction k, hjk using Nat.le_induction with
  | base => exact .inl rfl
  | succ k hjk ih =>
    have hkept := prefix_columns_reduceColumn ⟨k, hk⟩ (A.reductionUpTo k (Nat.le_of_succ_le hk))
    rcases ih (Nat.le_of_succ_le hk) with he | ⟨c, hc, hr⟩
    · rw [A.reductionUpTo_succ ⟨k, hk⟩, he]
      rcases reduceColumn_cases ⟨k, hk⟩ s with ⟨he, _⟩ | ⟨_, r, hr, hsig, he⟩
      · exact .inl he
      · refine .inr ⟨⟨k, hk⟩, ?_, r, hr, hsig⟩
        rw [he, Reduction.columns, List.map_append, ← Reduction.columns, ← s.length_columns]
        simp
    · exact .inr ⟨c, getElem?_eq_some_of_initial hkept hc, hr⟩

end

variable {K : Type} [Field K] [LinearOrder K] {m n : Nat} {A B : Mat K m n}

/-- Row operations do not tell equal columns apart. -/
theorem RowEquivalent.column_eq (h : RowEquivalent A B) {c d : Fin n} (hcd : ∀ p, B p c = B p d)
    (p : Fin m) : A p c = A p d := by
  obtain ⟨_, F, _, _, rfl⟩ := h.symm
  rw [mul_entry, mul_entry]
  exact Finset.sum_congr rfl fun q _ => by rw [hcd q]

/-- A pivot step has nothing to do in a unit column. -/
theorem pivotOn_of_unit {k : Fin m} {c : Fin n} (h : ∀ p, A p c = if p = k then 1 else 0) :
    A.pivotOn k k c = A := by
  ext p j
  rw [pivotOn_apply, swapRows_self, h k, if_pos rfl, div_one]
  split_ifs with hp
  · rw [hp]
  · rw [h p, if_neg hp, zero_mul, sub_zero]

variable [IsStrictOrderedRing K]

theorem reduceColumn_of_unit {s : Reduction K m n} {c : Fin n} (hm : s.cursor < m)
    (h : ∀ p : Fin m, s.matrix p c = if p.val = s.cursor then 1 else 0) :
    (reduceColumn c s).matrix = s.matrix ∧ (reduceColumn c s).columns = s.columns ++ [c] := by
  have hone : Significant (s.matrix ⟨s.cursor, hm⟩ c) := by
    rw [h, if_pos rfl]
    exact significant_one
  rcases reduceColumn_cases c s with ⟨_, hskip⟩ | ⟨_, r, _, hsig, he⟩
  · exact absurd hone (hskip _ le_rfl)
  · have hr : r = ⟨s.cursor, hm⟩ := by
      by_contra hne
      rw [h, if_neg fun hv => hne (Fin.ext hv)] at hsig
      exact not_significant_zero hsig
    subst hr
    rw [he, Reduction.columns, List.map_append]
    refine ⟨pivotOn_of_unit fun p => (h p).trans ?_, rfl⟩
    exact if_congr (Fin.ext_iff (a := p) (b := ⟨s.cursor, hm⟩)).symm rfl rfl

/-- The reduction of the result goes the same way again, and changes nothing. -/
def Retraced (A : Mat K m n) : Prop :=
  ∀ k hk, (A.rref.reductionUpTo k hk).matrix = A.rref ∧
    (A.rref.reductionUpTo k hk).columns = (A.reductionUpTo k hk).columns

/-- The pivot columns are unit columns, so only the skipped ones can make a difference. -/
theorem retraced_of_skipped (h : ∀ c ∉ A.reduction.columns,
    (A.rref.reductionUpTo c c.isLt.le).matrix = A.rref →
    (A.rref.reductionUpTo c c.isLt.le).cursor = (A.reductionUpTo c c.isLt.le).cursor →
    (∀ r : Fin m, (A.reductionUpTo c c.isLt.le).cursor ≤ r →
      ¬Significant ((A.reductionUpTo c c.isLt.le).matrix r c)) →
    A.rref.reductionUpTo (c + 1) c.isLt = A.rref.reductionUpTo c c.isLt.le) : A.Retraced := by
  intro k hk
  induction k with
  | zero => exact ⟨rfl, rfl⟩
  | succ k ih =>
    obtain ⟨hmatrix, hcolumns⟩ := ih (Nat.le_of_succ_le hk)
    have hcursor : (A.rref.reductionUpTo k (Nat.le_of_succ_le hk)).cursor =
        (A.reductionUpTo k (Nat.le_of_succ_le hk)).cursor := by
      rw [← Reduction.length_columns, hcolumns, Reduction.length_columns]
    rcases A.reductionUpTo_succ_cases ⟨k, hk⟩ with ⟨hc, he, hskip⟩ | ⟨hc, he, r, hr, _⟩
    · rw [h ⟨k, hk⟩ hc hmatrix hcursor hskip, he]
      exact ⟨hmatrix, hcolumns⟩
    · have hunit := A.reductionUpTo_unitColumns n le_rfl _ _ hc
      rw [← hcursor] at hunit hr
      obtain ⟨hm, hcols⟩ := reduceColumn_of_unit (c := ⟨k, hk⟩) (lt_of_le_of_lt hr r.isLt)
        (by rwa [hmatrix])
      rw [A.rref.reductionUpTo_succ ⟨k, hk⟩, hm, hcols, he, hcolumns]
      exact ⟨hmatrix, rfl⟩

/-- A second pivot of one kind would make two columns equal, of which one was skipped for want of
what the other one had. -/
theorem retraced_of_rref_rref (h : A.rref.rref = A.rref) : A.Retraced := by
  apply retraced_of_skipped
  intro c _ _ hcursor hskip
  rcases A.rref.reductionUpTo_succ_cases c with ⟨_, he, _⟩ | ⟨hc, _, p, hp, _⟩
  · exact he
  · exfalso
    rw [hcursor] at hc hp
    have hunit : ∀ q : Fin m, A.rref q c =
        if q.val = (A.reductionUpTo c c.isLt.le).cursor then 1 else 0 := by
      have hu := A.rref.reductionUpTo_unitColumns n le_rfl _ _ hc
      change ∀ q, A.rref.rref q c = _ at hu
      rwa [h] at hu
    rcases A.reductionUpTo_eq_or_exists_pivot c.isLt.le le_rfl with he | ⟨d, hd, r, hr, hsig⟩
    · let k : Fin m := ⟨(A.reductionUpTo c c.isLt.le).cursor, lt_of_le_of_lt hp p.isLt⟩
      apply hskip k le_rfl
      rw [← he]
      change Significant (A.rref k c)
      rw [hunit, if_pos rfl]
      exact significant_one
    · have hsame : ∀ q, A.rref q c = A.rref q d := by
        intro q
        rw [hunit]
        exact (A.reductionUpTo_unitColumns n le_rfl _ _ hd q).symm
      have hrow := (A.reductionUpTo_rowEquivalent c c.isLt.le).symm.trans A.rref_rowEquivalent
      apply hskip r hr
      rwa [hrow.column_eq hsame]

theorem retraced_of_columns_eq (h : A.rref.reduction.columns = A.reduction.columns) :
    A.Retraced := by
  apply retraced_of_skipped
  intro c hc _ _ _
  rcases A.rref.reductionUpTo_succ_cases c with ⟨_, he, _⟩ | ⟨hc', _⟩
  · exact he
  · exact absurd (h ▸ List.mem_of_getElem? hc') hc

theorem retraced_of_keepsSkipped (h : A.KeepsSkipped) : A.Retraced := by
  apply retraced_of_skipped
  intro c hc hmatrix hcursor _
  rcases A.rref.reductionUpTo_succ_cases c with ⟨_, he, _⟩ | ⟨_, _, r, hr, hsig⟩
  · exact he
  · rw [hmatrix] at hsig
    exact absurd hsig (h c hc r (hcursor ▸ hr))

omit [IsStrictOrderedRing K] in
theorem Retraced.keepsSkipped (h : A.Retraced) : A.KeepsSkipped := by
  intro c hc
  obtain ⟨hmatrix, hcolumns⟩ := h c c.isLt.le
  rcases A.rref.reductionUpTo_succ_cases c with ⟨_, _, hskip⟩ | ⟨hc', _⟩
  · rwa [← Reduction.length_columns, hcolumns, Reduction.length_columns, hmatrix] at hskip
  · exact absurd ((h n le_rfl).2 ▸ List.mem_of_getElem? hc') hc

theorem rref_rref_eq_iff : A.rref.rref = A.rref ↔ A.KeepsSkipped := by
  constructor
  · intro h
    exact (retraced_of_rref_rref h).keepsSkipped
  · intro h
    exact (retraced_of_keepsSkipped h n le_rfl).1

theorem rref_rref_eq_iff_columns :
    A.rref.rref = A.rref ↔ A.rref.reduction.columns = A.reduction.columns := by
  constructor
  · intro h
    exact (retraced_of_rref_rref h n le_rfl).2
  · intro h
    exact (retraced_of_columns_eq h n le_rfl).1

/-- To the left of its pivot a row of the reduced form is zero, and a skipped column lies to the
left of all pivots that follow. -/
theorem keepsSkipped_of_skipsOnlyZeros (h : A.SkipsOnlyZeros) : A.KeepsSkipped := by
  have hred := rref_isReduced h
  intro c hc r hr
  suffices hzero : A.rref r c = 0 by
    rw [hzero]
    exact not_significant_zero
  cases hd : A.reduction.columns[r.val]? with
  | none => exact hred.eq_zero_of_none hd c
  | some d =>
    apply hred.staircase.left r d hd
    rcases lt_trichotomy c d with hlt | rfl | hgt
    · exact hlt
    · exact absurd (List.mem_of_getElem? hd) hc
    · exfalso
      have hmem := (A.mem_columns_reductionUpTo_iff c.isLt.le).mpr ⟨List.mem_of_getElem? hd, hgt⟩
      obtain ⟨i, hi⟩ := List.mem_iff_getElem?.mp hmem
      have hi' := getElem?_eq_some_of_initial (A.prefix_columns_reductionUpTo c.isLt.le le_rfl) hi
      have hir : i = r := hred.row_eq hi' hd
      have hlt := (List.getElem?_eq_some_iff.mp hi).1
      rw [Reduction.length_columns] at hlt
      omega

end Mat

namespace DenseMatrix

theorem withEntries_inj {α : Type} {A : DenseMatrix α} {R S : Mat α A.height A.width} :
    A.withEntries R = A.withEntries S ↔ R = S := by
  constructor
  · intro h
    rw [withEntries, withEntries, mk.injEq] at h
    exact eq_of_heq h.2.2
  · rintro rfl
    rfl

theorem result_rref {α : Type} [Scalar α] (A : DenseMatrix α) :
    A.rref.result = .ok (A.withEntries A.entries.rref) := rfl

variable {K : Type} [Field K] [LinearOrder K] [IsStrictOrderedRing K]

/-- The reduced form is reduced to itself exactly if what was skipped is still not significant in
it, and exactly if the second reduction finds pivots in the same columns. It is whenever only zeros
are skipped. -/
theorem rref_rref_iff_keepsSkipped (A : DenseMatrix K) :
    ∃ R : Mat K A.height A.width, A.rref.result = .ok (A.withEntries R) ∧
      ((A.withEntries R).rref.result = .ok (A.withEntries R) ↔ A.entries.KeepsSkipped) ∧
      ((A.withEntries R).rref.result = .ok (A.withEntries R) ↔
        R.reduction.columns = A.entries.reduction.columns) ∧
      (A.entries.SkipsOnlyZeros →
        (A.withEntries R).rref.result = .ok (A.withEntries R)) := by
  have hresult : (A.withEntries A.entries.rref).rref.result = .ok (A.withEntries A.entries.rref) ↔
      A.entries.rref.rref = A.entries.rref := by
    rw [result_rref, Except.ok.injEq]
    exact withEntries_inj
  refine ⟨A.entries.rref, rfl, ?_, ?_, ?_⟩
  · rw [hresult, Mat.rref_rref_eq_iff]
  · rw [hresult, Mat.rref_rref_eq_iff_columns]
  · intro hzero
    rw [hresult, Mat.rref_rref_eq_iff]
    exact Mat.keepsSkipped_of_skipsOnlyZeros hzero

/-- The second row is half the first one, but for `5 * 10⁻¹¹` in the second column. -/
def nearlyHalved : DenseMatrix ℚ :=
  ⟨2, 3, Nat.two_pos, faint.height_pos, .ofFn ![![2, 4, 6], ![1, 2 + 1 / (2 * 10 ^ 10), 3]]⟩

theorem rref_rref_nearlyHalved :
    nearlyHalved.entries.KeepsSkipped ∧ ¬nearlyHalved.entries.SkipsOnlyZeros ∧
    ∃ R : Mat ℚ 2 3, nearlyHalved.rref.result = .ok (nearlyHalved.withEntries R) ∧
      (nearlyHalved.withEntries R).rref.result = .ok (nearlyHalved.withEntries R) := by
  have hkeeps : nearlyHalved.entries.KeepsSkipped := by decide +kernel
  have hskips : ¬nearlyHalved.entries.SkipsOnlyZeros := by decide +kernel
  obtain ⟨R, hR, hiff, _⟩ := rref_rref_iff_keepsSkipped nearlyHalved
  exact ⟨hkeeps, hskips, R, hR, hiff.mpr hkeeps⟩

/-- The first entry is too small for a pivot, but not against the second one, by which it is
divided. -/
def faintRow : Mat ℚ 1 2 := .ofFn ![![1 / (2 * 10 ^ 10), 1 / (5 * 10 ^ 9)]]

def faintRowFloat : DenseMatrix Float := ⟨1, 2, Nat.one_pos, Nat.two_pos, .ofFn ![![5e-11, 2e-10]]⟩

theorem rref_rref_faintRow :
    let A : DenseMatrix ℚ := ⟨1, 2, Nat.one_pos, Nat.two_pos, faintRow⟩
    let R : Mat ℚ 1 2 := .ofFn ![![1 / 4, 1]]
    let T : Mat ℚ 1 2 := .ofFn ![![1, 4]]
    A.rref.result = .ok (A.withEntries R) ∧
    (A.withEntries R).rref.result = .ok (A.withEntries T) ∧ A.withEntries T ≠ A.withEntries R ∧
    ∃ S S', faintRowFloat.rref.result = .ok S ∧ S.rref.result = .ok S' ∧ (S' == S) = false := by
  have hR : faintRow.rref = .ofFn ![![1 / 4, 1]] := by decide +kernel
  have hT : (.ofFn ![![1 / 4, 1]] : Mat ℚ 1 2).rref = .ofFn ![![1, 4]] := by decide +kernel
  have hne : (.ofFn ![![1, 4]] : Mat ℚ 1 2) ≠ .ofFn ![![1 / 4, 1]] := by decide +kernel
  intro A R T
  refine ⟨?_, ?_, ?_, _, _, result_rref faintRowFloat, result_rref _, ?_⟩
  · rw [result_rref]
    exact congrArg (fun S => Except.ok (A.withEntries S)) hR
  · rw [result_rref]
    exact congrArg (fun S => Except.ok (A.withEntries S)) hT
  · rw [ne_eq, withEntries_inj]
    exact hne
  · decide +kernel

end DenseMatrix

end DenseLinear
