import DenseLinear.Proofs.Diagonalization

/-!
# Eigenvectors by value

The collection remembers only the values that have brought vectors. That is enough: a value without
vectors has none to add when it comes again. So the collected vectors are those of the distinct
values, one value after the other in the order in which they first occur, each vector with its own
value. They decide the diagonalization: their number must be the size of the matrix, and the matrix
of these columns must have an inverse.
-/

namespace DenseLinear

section

variable {α : Type} [BEq α] [LawfulBEq α] {n : Nat}

/-- A value is listed at its first occurrence. -/
theorem eraseDups_concat (values : List α) (x : α) :
    (values ++ [x]).eraseDups = if x ∈ values then values.eraseDups else values.eraseDups ++ [x] := by
  rw [List.eraseDups_append]
  split_ifs with h <;> simp [List.removeAll, List.eraseDups_cons, h]

theorem nodup_eraseDups (values : List α) : values.eraseDups.Nodup := by
  induction values using List.reverseRecOn with
  | nil => exact List.nodup_nil
  | append_singleton values x ih =>
    rw [eraseDups_concat]
    split_ifs with h
    · exact ih
    · exact List.concat_eq_append ▸ ih.concat (mt List.mem_eraseDups.mp h)

variable (E : α → List (Vec α n))

/-- A value is represented among the vectors if it is listed and has any. -/
theorem any_groups_iff (values : List α) (x : α) :
    (values.eraseDups.flatMap fun y => (E y).map (Eigenvector.mk · y)).any (·.value == x) = true ↔
      x ∈ values ∧ E x ≠ [] := by
  rw [List.any_eq_true]
  constructor
  · rintro ⟨e, he, hvalue⟩
    obtain ⟨y, hy, he⟩ := List.mem_flatMap.mp he
    obtain ⟨v, hv, rfl⟩ := List.mem_map.mp he
    obtain rfl : y = x := eq_of_beq hvalue
    exact ⟨List.mem_eraseDups.mp hy, List.ne_nil_of_mem hv⟩
  · rintro ⟨hx, hne⟩
    obtain ⟨v, hv⟩ := List.exists_mem_of_ne_nil _ hne
    exact ⟨⟨v, x⟩, List.mem_flatMap.mpr ⟨x, List.mem_eraseDups.mpr hx, List.mem_map_of_mem hv⟩,
      beq_self_eq_true x⟩

theorem collect_eq_groups (values : List α) :
    collect (values.map fun x => ⟨x, E x⟩) =
      values.eraseDups.flatMap fun x => (E x).map (Eigenvector.mk · x) := by
  induction values using List.reverseRecOn with
  | nil => rfl
  | append_singleton values x ih =>
    have hany := any_groups_iff E values x
    rw [List.map_append, List.map_singleton, collect_concat, ih, eraseDups_concat]
    by_cases hx : x ∈ values
    · rw [if_pos hx]
      split_ifs with h
      · rfl
      · have hnil : E x = [] := by
          by_contra hne
          exact h (hany.mpr ⟨hx, hne⟩)
        rw [hnil, List.map_nil, List.append_nil]
    · rw [if_neg hx, if_neg fun h => hx (hany.mp h).1, List.flatMap_append, List.flatMap_singleton]

end

namespace Mat

variable {α : Type} [RootScalar α] {n : Nat}

theorem result_diagonalize_of_eigenvalues [LawfulBEq α] {A : Mat α n n} {values : Vec α n}
    (h : (A.eigenvalues .standard).result = .ok values) :
    A.diagonalize.result = diagonalizeWith
      (values.toList.eraseDups.flatMap fun x => (A.eigenspace x).map (Eigenvector.mk · x)) := by
  rw [result_diagonalize, h, Except.bind, pairsAt, collect_eq_groups]

end Mat

namespace DenseMatrix

theorem inverse_ofSquare {α : Type} [Scalar α] (A : DenseMatrix α) (B : Mat α A.height A.height) :
    (A.ofSquare B).inverse = (orError .singular B.inverse).map A.ofSquare := by
  have h : (A.ofSquare B).inverse = _ := inverse_mk A.height_pos A.height_pos B
  rw [h]
  cases B.inverse <;> rfl

/-- Each distinct value brings its eigenvectors once, in the order of the first occurrences. If they
are not as many as the size of the matrix, diagonalization reports how many there are. Otherwise
they are the columns of `P`, it is refused exactly if the inversion of `P` is, and it answers with
`P`, the values of the columns on the diagonal of `D`, and the inverse. -/
theorem diagonalize_by_distinct_values {α : Type} [RootScalar α] [LawfulBEq α] (A : DenseMatrix α)
    (values : DenseVector α) (h : (A.eigenvalues .standard).result = .ok values) :
    ∃ basis : α → List (Vec α A.height),
      (∀ x, (A.eigenvector x).result = .ok ((basis x).map (·.toArray))) ∧
      let found := values.toList.eraseDups.flatMap fun x => (basis x).map (Eigenvector.mk · x)
      (A.diagonalize.result = .error (.notDiagonalizable found.length A.height) ↔
        found.length ≠ A.height) ∧
      ∀ hfound : found.length = A.height,
        let column (j : Fin A.height) := found.get (j.cast hfound.symm)
        let P := A.ofSquare (.ofFn fun i j => (column j).vector i)
        (A.diagonalize.result = .error .singular ↔ P.inverse = .error .singular) ∧
        (P.inverse = .error .singular ∨
          ∃ f, A.diagonalize.result = .ok f ∧ A.ofSquare f.p = P ∧
            P.inverse = .ok (A.ofSquare f.pInv) ∧ (∀ i j, i ≠ j → f.d i j = 0) ∧
            ∀ j, f.d j j = (column j).value) := by
  obtain ⟨S, v, hS, hv, rfl⟩ := eigenvalues_eq_ok_iff.mp h
  refine ⟨S.eigenspace, result_eigenvector_of_toSquare hS, ?_⟩
  intro found
  have hrun : A.diagonalize.result = Mat.diagonalizeWith found := by
    rw [result_diagonalize_of_toSquare hS, Mat.result_diagonalize_of_eigenvalues hv]
    rfl
  rw [hrun]
  by_cases hfound : found.length = A.height
  · let columns : Vec (Eigenvector α A.height) A.height := .ofArray found.toArray hfound
    have hsome : Mat.diagonalizeWith found = _ := Mat.diagonalizeWith_toList columns
    have hP : Mat.ofFn (fun i j => (found.get (j.cast hfound.symm)).vector i) =
        .ofCols (columns.map (·.vector)) := by
      ext i j
      rw [Mat.entry_ofFn, Mat.ofCols_apply, Vec.map_apply]
      rfl
    refine ⟨?_, ?_⟩
    · refine iff_of_false ?_ (not_not.mpr hfound)
      rw [hsome]
      cases (Mat.ofCols (columns.map (·.vector))).inverse <;> exact nofun
    · intro _ column P
      simp only [P, column, hP, inverse_ofSquare, hsome]
      cases (Mat.ofCols (columns.map (·.vector))).inverse with
      | none => exact ⟨iff_of_true rfl rfl, .inl rfl⟩
      | some pInv =>
        refine ⟨iff_of_false nofun nofun, .inr ⟨_, rfl, rfl, rfl, ?_, ?_⟩⟩
        · intro i j hij
          rw [Mat.ofDiagonal_apply, if_neg hij]
        · intro j
          rw [Mat.ofDiagonal_apply, if_pos rfl, Vec.map_apply]
          rfl
  · rw [Mat.diagonalizeWith, dif_neg hfound]
    exact ⟨iff_of_true rfl hfound, fun h => absurd h hfound⟩

/-- The repeated value comes first with both of its eigenvectors, although its occurrences stand
apart. -/
theorem diagonalize_interleaved_by_values :
    let A : DenseMatrix ℝ :=
      ⟨3, 3, Nat.succ_pos 2, Nat.succ_pos 2, interleaved.map (Rat.castHom ℝ)⟩
    (A.eigenvalues .standard).result = .ok #[2, 3, 2] ∧
    ∃ f, A.diagonalize.result = .ok f ∧ f.d = .ofDiagonal (.ofFn ![2, 2, 3]) ∧
      (A.ofSquare f.p).inverse = .ok (A.ofSquare f.pInv) := by
  intro A
  have hφ : StrictMono (Rat.castHom ℝ) := Rat.cast_strictMono
  have hA : A.toSquare = .ok (interleaved.map (Rat.castHom ℝ)) := toSquare_mk _ _ _
  have hdiagonal : (Vec.ofFn fun i => interleaved i i).map (Rat.castHom ℝ) = .ofFn ![2, 3, 2] := by
    ext i
    fin_cases i <;> simp [interleaved]
  have hvalues : (A.eigenvalues .standard).result = .ok #[2, 3, 2] :=
    eigenvalues_eq_ok_iff.mpr ⟨_, _, hA, Mat.eigenvalues_map_of_triangular hφ (by decide +kernel)
      (by decide +kernel), congrArg Vec.toArray hdiagonal⟩
  obtain ⟨basis, hbasis, _, hrun⟩ := diagonalize_by_distinct_values A _ hvalues
  have hlength (x : ℚ) : (basis (Rat.castHom ℝ x)).length =
      (interleaved.shift x).freeSolutions.length := by
    rw [basis_eq_of_eigenvector hφ hA (hbasis _), List.length_map]
  have hfree : (interleaved.shift 2).freeSolutions.length = 2 ∧
      (interleaved.shift 3).freeSolutions.length = 1 := by
    decide +kernel
  have htwo : (basis 2).length = 2 := by simpa using (hlength 2).trans hfree.1
  have hthree : (basis 3).length = 1 := by simpa using (hlength 3).trans hfree.2
  have hgroups : (#[2, 3, 2] : Array ℝ).toList.eraseDups = [2, 3] := by
    norm_num [List.eraseDups_cons]
  rw [hgroups] at hrun
  have htags : ([2, 3].flatMap fun x => (basis x).map (Eigenvector.mk · x)).map (·.value) =
      [2, 2, 3] := by
    simp [Function.comp_def, htwo, hthree, List.replicate_succ]
  have hfound : ([2, 3].flatMap fun x => (basis x).map (Eigenvector.mk · x)).length = A.height := by
    simpa using congrArg List.length htags
  obtain ⟨hsingular, hstop | ⟨f, hf, hP, hinv, hd, htag⟩⟩ := hrun hfound
  · have h := (result_diagonalize_of_toSquare hA).trans result_diagonalize_interleaved
    cases h.symm.trans (hsingular.mpr hstop)
  · refine ⟨hvalues, f, hf, ?_, hP ▸ hinv⟩
    ext i j
    rw [Mat.ofDiagonal_apply]
    split_ifs with hij
    · subst hij
      have hi := List.getElem_of_eq htags (i := i) (by rw [List.length_map, hfound]; exact i.isLt)
      rw [List.getElem_map] at hi
      exact (htag i).trans (hi.trans (by fin_cases i <;> rfl))
    · exact hd i j hij

end DenseMatrix

end DenseLinear
