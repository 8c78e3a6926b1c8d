import DenseLinear.Dense.Text
import DenseLinear.Proofs.PlainText
import DenseLinear.Proofs.Storage.RoundTrips

/-!
# Matrices told apart by their texts

The entries of a row end at a blank, the rows at a line end, and a matrix of one row has no line end
at all. So if the texts of numbers have neither, the text of a matrix can be taken apart again, and
matrices with the same text are the same if numbers with the same text are. Numbers written in full
are such texts.
-/

namespace DenseLinear

variable {α β : Type}

/-- A list is known up to the first place of `c`, and from there on. -/
theorem append_cons_inj {c : α} {a b s t : List α} (ha : c ∉ a) (hb : c ∉ b)
    (h : a ++ c :: s = b ++ c :: t) : a = b ∧ s = t := by
  induction a generalizing b with
  | nil =>
    cases b with
    | nil => exact ⟨rfl, List.cons_injective h⟩
    | cons e b => exact absurd ((List.cons.inj h).1 ▸ List.mem_cons_self) hb
  | cons d a ih =>
    cases b with
    | nil => exact absurd ((List.cons.inj h).1 ▸ List.mem_cons_self) ha
    | cons e b =>
      obtain ⟨rfl, hrest⟩ := List.cons.inj h
      obtain ⟨rfl, htail⟩ :=
        ih (List.not_mem_of_not_mem_cons ha) (List.not_mem_of_not_mem_cons hb) hrest
      exact ⟨rfl, htail⟩

/-- Words that lack the last character of the separator are found again between separators. -/
theorem intercalate_inj (sep : List α) {c : α} (hsep : c ∉ sep) {xs ys : List (List α)}
    (hxs : ∀ x ∈ xs, c ∉ x) (hys : ∀ y ∈ ys, c ∉ y) (hx : xs ≠ []) (hy : ys ≠ [])
    (h : List.intercalate (sep ++ [c]) xs = List.intercalate (sep ++ [c]) ys) : xs = ys := by
  have hword {z : List α} (hz : c ∉ z) : c ∉ z ++ sep := by
    rw [List.mem_append]
    exact fun hc => hc.elim hz hsep
  have hone {z w : List α} {ws : List (List α)} (hz : c ∉ z)
      (h : z = w ++ (sep ++ [c]) ++ List.intercalate (sep ++ [c]) ws) : False :=
    hz (h ▸ by simp)
  induction xs generalizing ys with
  | nil => exact absurd rfl hx
  | cons x xs ih =>
    cases ys with
    | nil => exact absurd rfl hy
    | cons y ys =>
      have hx' := hxs x List.mem_cons_self
      have hy' := hys y List.mem_cons_self
      cases xs with
      | nil =>
        cases ys with
        | nil => simpa using h
        | cons y' ys =>
          rw [List.intercalate_singleton, List.intercalate_cons_cons] at h
          exact (hone hx' h).elim
      | cons x' xs =>
        cases ys with
        | nil =>
          rw [List.intercalate_singleton, List.intercalate_cons_cons] at h
          exact (hone hy' h.symm).elim
        | cons y' ys =>
          have hsplit : (x ++ sep) ++ c :: List.intercalate (sep ++ [c]) (x' :: xs) =
              (y ++ sep) ++ c :: List.intercalate (sep ++ [c]) (y' :: ys) := by
            simpa using h
          obtain ⟨hfirst, hrest⟩ := append_cons_inj (hword hx') (hword hy') hsplit
          rw [List.append_cancel_right hfirst,
            ih (fun z hz => hxs z (List.mem_cons_of_mem x hz))
              (fun z hz => hys z (List.mem_cons_of_mem y hz)) (List.cons_ne_nil _ _)
              (List.cons_ne_nil _ _) hrest]

theorem mem_intercalate {sep : List α} {c : α} {xs : List (List α)}
    (h : c ∈ List.intercalate sep xs) : c ∈ sep ∨ ∃ x ∈ xs, c ∈ x := by
  induction xs with
  | nil => cases h
  | cons x xs ih =>
    cases xs with
    | nil => exact .inr ⟨x, List.mem_cons_self, by simpa using h⟩
    | cons y ys =>
      rw [List.intercalate_cons_cons, List.mem_append, List.mem_append] at h
      rcases h with (hx | hsep) | hrest
      · exact .inr ⟨x, List.mem_cons_self, hx⟩
      · exact .inl hsep
      · exact (ih hrest).imp id fun ⟨z, hz, hc⟩ => ⟨z, List.mem_cons_of_mem x hz, hc⟩

/-- A function that tells apart what has a property tells apart lists of it. -/
theorem eq_of_map_eq {P : α → Prop} {f : α → β} (hf : ∀ x y, P x → P y → f x = f y → x = y)
    {xs ys : List α} (hxs : ∀ x ∈ xs, P x) (hys : ∀ y ∈ ys, P y) (h : xs.map f = ys.map f) :
    xs = ys := by
  induction xs generalizing ys with
  | nil => exact (List.map_eq_nil_iff.mp h.symm).symm
  | cons x xs ih =>
    cases ys with
    | nil => cases h
    | cons y ys =>
      obtain ⟨hfirst, hrest⟩ := List.cons.inj h
      rw [hf x y (hxs x List.mem_cons_self) (hys y List.mem_cons_self) hfirst,
        ih (fun z hz => hxs z (List.mem_cons_of_mem x hz))
          (fun z hz => hys z (List.mem_cons_of_mem y hz)) hrest]

/-- A way to write the numbers with a property: it tells them apart, and uses neither blanks nor
line ends. -/
structure Legible (P : α → Prop) (number : α → String) : Prop where
  inj : ∀ x y, P x → P y → number x = number y → x = y
  blank : ∀ x, P x → ' ' ∉ (number x).toList
  lineEnd : ∀ x, P x → '\n' ∉ (number x).toList

section

variable {P : α → Prop} {number : α → String}

theorem Legible.rowText_inj (hn : Legible P number) {xs ys : List α} (hxs : ∀ x ∈ xs, P x)
    (hys : ∀ y ∈ ys, P y) (hx : xs ≠ []) (hy : ys ≠ [])
    (h : rowText number xs = rowText number ys) : xs = ys := by
  have hchars (x y : α) (hPx : P x) (hPy : P y) (h : (number x).toList = (number y).toList) :
      x = y := hn.inj x y hPx hPy (String.toList_inj.mp h)
  have hblank {zs : List α} (hzs : ∀ z ∈ zs, P z) :
      ∀ w ∈ zs.map fun z => (number z).toList, ' ' ∉ w := by
    intro w hw
    obtain ⟨z, hz, rfl⟩ := List.mem_map.mp hw
    exact hn.blank z (hzs z hz)
  have hwords := List.append_cancel_right (List.cons_injective h)
  exact eq_of_map_eq hchars hxs hys
    (intercalate_inj [','] (by decide) (hblank hxs) (hblank hys) (by simpa using hx)
      (by simpa using hy) hwords)

theorem Legible.lineEnd_notMem_rowText (hn : Legible P number) {xs : List α}
    (hxs : ∀ x ∈ xs, P x) : '\n' ∉ rowText number xs := by
  have hwords : '\n' ∉ List.intercalate [',', ' '] (xs.map fun x => (number x).toList) := by
    intro hmem
    rcases mem_intercalate hmem with hsep | ⟨w, hw, hc⟩
    · exact absurd hsep (by decide)
    · obtain ⟨x, hx, rfl⟩ := List.mem_map.mp hw
      exact hn.lineEnd x (hxs x hx) hc
  simp [rowText, hwords]

end

/-- What stands between the outer brackets: one row alone, or each row on a line of its own. -/
inductive Laid : List (List Char) → List Char → Prop where
  | line (row : List Char) : Laid [row] row
  | lines {rows : List (List Char)} (h : rows.length ≠ 1) : Laid rows
      ('\n' :: List.intercalate [',', '\n'] (rows.map ([' ', ' '] ++ ·)) ++ ['\n'])

theorem Laid.inj {rows rows' : List (List Char)} {body : List Char} (h : Laid rows body)
    (h' : Laid rows' body) (hrows : ∀ row ∈ rows, '\n' ∉ row) (hrows' : ∀ row ∈ rows', '\n' ∉ row)
    (hne : rows ≠ []) (hne' : rows' ≠ []) : rows = rows' := by
  have hindented {rows : List (List Char)} (hrows : ∀ row ∈ rows, '\n' ∉ row) :
      ∀ line ∈ rows.map ([' ', ' '] ++ ·), '\n' ∉ line := by
    intro line hline
    obtain ⟨row, hrow, rfl⟩ := List.mem_map.mp hline
    simp [hrows row hrow]
  cases h with
  | line =>
    cases h' with
    | line => rfl
    | lines => exact absurd (by simp) (hrows _ List.mem_cons_self)
  | lines =>
    generalize hbody : '\n' :: List.intercalate [',', '\n'] (rows.map ([' ', ' '] ++ ·)) ++ ['\n'] =
      body at h'
    cases h' with
    | line => exact absurd (hbody ▸ by simp) (hrows' _ List.mem_cons_self)
    | lines =>
      have hlines := List.append_cancel_right (List.cons_injective hbody)
      have hmap := intercalate_inj [','] (by decide) (hindented hrows) (hindented hrows')
        (by simpa using hne) (by simpa using hne') hlines
      exact List.map_injective_iff.mpr (List.append_right_injective _) hmap

namespace DenseMatrix

variable {P : α → Prop} {number : α → String} {A B : DenseMatrix α}

theorem exists_laid (number : α → String) (A : DenseMatrix α) :
    ∃ body, Laid (A.rows.toList.map fun row => rowText number row.toList) body ∧
      A.text number = "matrix([" ++ String.ofList body ++ "])" := by
  unfold text
  dsimp only
  generalize A.rows.toList.map (fun row => rowText number row.toList) = rows
  split
  · rename_i row
    exact ⟨row, .line row, rfl⟩
  · rename_i hrows
    refine ⟨_, .lines ?_, rfl⟩
    intro hlength
    obtain ⟨row, hrow⟩ := List.length_eq_one_iff.mp hlength
    exact hrows row hrow

/-- A row of a matrix whose entries have the property is not empty, and its entries have it. -/
theorem forall_mem_rows (hA : ∀ i j, P (A.entries i j)) :
    ∀ row ∈ A.rows.toList, row.toList ≠ [] ∧ ∀ x ∈ row.toList, P x := by
  intro row hrow
  obtain ⟨i, rfl⟩ := Array.mem_ofFn.mp (Array.mem_toList_iff.mp hrow)
  constructor
  · intro hnil
    have hlength := congrArg List.length hnil
    rw [Array.length_toList, Vec.size_toArray] at hlength
    exact absurd hlength A.width_pos.ne'
  · intro x hx
    obtain ⟨j, hj, rfl⟩ := Array.mem_iff_getElem.mp (Array.mem_toList_iff.mp hx)
    exact hA i ⟨j, by rwa [Vec.size_toArray] at hj⟩

theorem rowTexts_ne_nil (number : α → String) (A : DenseMatrix α) :
    (A.rows.toList.map fun row => rowText number row.toList) ≠ [] := by
  intro hnil
  have hlength := congrArg List.length hnil
  rw [List.length_map, Array.length_toList, rows, Array.size_ofFn] at hlength
  exact absurd hlength A.height_pos.ne'

theorem lineEnd_notMem_rowTexts (hn : Legible P number) (hA : ∀ i j, P (A.entries i j)) :
    ∀ text ∈ A.rows.toList.map fun row => rowText number row.toList, '\n' ∉ text := by
  intro text htext
  obtain ⟨row, hrow, rfl⟩ := List.mem_map.mp htext
  exact hn.lineEnd_notMem_rowText (forall_mem_rows hA row hrow).2

/-- Matrices of legible numbers are the same if their texts are. -/
theorem eq_of_text_eq (hn : Legible P number) (hA : ∀ i j, P (A.entries i j))
    (hB : ∀ i j, P (B.entries i j)) (h : A.text number = B.text number) : A = B := by
  obtain ⟨body, hlaid, htext⟩ := A.exists_laid number
  obtain ⟨body', hlaid', htext'⟩ := B.exists_laid number
  have hbody : body = body' := by
    rw [htext, htext'] at h
    simpa using congrArg String.toList h
  subst hbody
  have hrowTexts := hlaid.inj hlaid' (lineEnd_notMem_rowTexts hn hA) (lineEnd_notMem_rowTexts hn hB)
    (A.rowTexts_ne_nil number) (B.rowTexts_ne_nil number)
  apply eq_of_rows_eq
  apply Array.toList_inj.mp
  refine eq_of_map_eq ?_ (forall_mem_rows hA) (forall_mem_rows hB) hrowTexts
  intro row row' hrow hrow' hsame
  exact Array.toList_inj.mp (hn.rowText_inj hrow.2 hrow'.2 hrow.1 hrow'.1 hsame)

end DenseMatrix

def IsNumber (x : Float) : Prop := x.isNaN = false

instance (x : Float) : Decidable (IsNumber x) := inferInstanceAs (Decidable (x.isNaN = false))

theorem legible_plainText : Legible IsNumber plainText where
  inj _ _ := plainText_inj
  blank x _ := notMem_plainText (.inl rfl) x
  lineEnd x _ := notMem_plainText (.inr rfl) x

namespace DenseMatrix

/-- However numbers are written, if the texts tell them apart and have neither blanks nor line ends,
then the texts of matrices tell matrices apart, by their sizes and by every bit of their entries.
This is so of numbers written in full. -/
theorem display_injective :
    (∀ number : Float → String, Legible IsNumber number → ∀ A B : DenseMatrix Float,
      (∀ i j, IsNumber (A.entries i j)) → (∀ i j, IsNumber (B.entries i j)) →
        (A.text number = B.text number ↔ A = B)) ∧
    Legible IsNumber plainText ∧
    ∀ A B : DenseMatrix Float,
      (∀ i j, IsNumber (A.entries i j)) → (∀ i j, IsNumber (B.entries i j)) →
        (A.display none = B.display none ↔ A = B) := by
  have hall (number : Float → String) (hn : Legible IsNumber number) (A B : DenseMatrix Float)
      (hA : ∀ i j, IsNumber (A.entries i j)) (hB : ∀ i j, IsNumber (B.entries i j)) :
      A.text number = B.text number ↔ A = B :=
    ⟨eq_of_text_eq hn hA hB, congrArg (text number)⟩
  exact ⟨hall, legible_plainText, hall plainText legible_plainText⟩

def abreast : Mat Float 1 2 := .ofFn ![![0, -0]]

theorem display_abreast :
    let A : DenseMatrix Float := ⟨1, 2, Nat.one_pos, Nat.two_pos, abreast⟩
    Legible IsNumber plainText ∧ (∀ i j, IsNumber (A.entries i j)) ∧
      (∀ i j, IsNumber (A.transpose.entries i j)) ∧
      A.display none = "matrix([[0, -0]])" ∧
      A.transpose.display none = "matrix([\n  [0],\n  [-0]\n])" ∧
      A.text plainText ≠ A.transpose.text plainText ∧ A.display none ≠ A.transpose.display none := by
  intro A
  have hA : ∀ i j, IsNumber (A.entries i j) := by decide +kernel
  have hA' : ∀ i j, IsNumber (A.transpose.entries i j) := by decide +kernel
  have hne : A ≠ A.transpose := fun h => absurd (congrArg height h) (by decide)
  obtain ⟨hall, hlegible, hdisplay⟩ := display_injective
  exact ⟨hlegible, hA, hA', by decide +kernel, by decide +kernel,
    mt (hall plainText hlegible A A.transpose hA hA').mp hne,
    mt (hdisplay A A.transpose hA hA').mp hne⟩

end DenseMatrix

end DenseLinear
