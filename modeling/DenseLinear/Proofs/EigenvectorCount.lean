import DenseLinear.Proofs.EigenvectorGroups

/-!
# How many eigenvectors are collected

Values are compared exactly, so equal ones share their eigenvectors, but values that merely lie
within the tolerance of each other bring an eigenspace each. The count is the sum of these over the
distinct values. It stays within the size of the matrix if what was collected are eigenvectors: then
those of distinct values are linearly independent.
-/

namespace DenseLinear

deriving instance DecidableEq for Diagonalization

theorem length_collect {α : Type} [DecidableEq α] {n : Nat} (E : α → List (Vec α n))
    (values : List α) :
    (collect (values.map fun x => ⟨x, E x⟩)).length = ∑ x ∈ values.toFinset, (E x).length := by
  have hset : values.toFinset = values.eraseDups.toFinset := by
    ext x
    rw [List.mem_toFinset, List.mem_toFinset, List.mem_eraseDups]
  rw [collect_eq_groups, List.length_flatMap, hset, List.sum_toFinset _ (nodup_eraseDups values)]
  simp only [List.length_map]

namespace Mat

section

variable {α : Type} [RootScalar α] {n : Nat} {A : Mat α n n}

theorem diagonalizeWith_eq_notDiagonalizable {vectors : List (Eigenvector α n)}
    {found required : Nat}
    (h : diagonalizeWith vectors = .error (.notDiagonalizable found required)) :
    found = vectors.length ∧ required = n ∧ found ≠ required := by
  unfold diagonalizeWith at h
  split at h
  · simp only at h
    split at h <;> cases h
  · rename_i hn
    cases h
    exact ⟨rfl, rfl, hn⟩

theorem diagonalize_eq_notDiagonalizable {found required : Nat}
    (h : A.diagonalize.result = .error (.notDiagonalizable found required)) :
    ∃ values, (A.eigenvalues .standard).result = .ok values ∧
      found = (collect (A.pairsAt values.toList)).length ∧ required = n ∧ found ≠ required := by
  rw [result_diagonalize] at h
  cases hvalues : (A.eigenvalues .standard).result with
  | error e =>
    rw [hvalues] at h
    unfold eigenvalues at hvalues
    split at hvalues
    · cases hvalues
      cases h
    · cases hvalues
  | ok values =>
    rw [hvalues] at h
    exact ⟨values, rfl, diagonalizeWith_eq_notDiagonalizable h⟩

end

variable {n : Nat} {A : Mat ℝ n n}

theorem notDiagonalizable_of_triangular {F : Type} [Field F] [LinearOrder F]
    [IsStrictOrderedRing F] [BEq F] [LawfulBEq F] {φ : F →+* ℝ} (hφ : StrictMono φ) {A : Mat F n n}
    (hbelow : ∀ a b, b < a → A a b = 0) (hdiag : ∀ i, 1 / 10 ^ 10 ≤ |A i i|) {found : Nat}
    (h : (collect A.diagonalPairs).length = found) (hne : found ≠ n) :
    (A.map φ).diagonalize.result = .error (.notDiagonalizable found n) := by
  have hlength : ((collect A.diagonalPairs).map (Eigenvector.map φ)).length = found := by
    rw [List.length_map, h]
  rw [result_diagonalize_of_triangular hφ hbelow hdiag, diagonalizeWith, dif_neg (hlength ▸ hne),
    hlength]

/-- Eigenvectors of distinct values are linearly independent, so they are no more than the
dimension. -/
theorem sum_length_eigenspace_le {S : Finset ℝ}
    (h : ∀ x ∈ S, ∀ v ∈ A.eigenspace x, A.mulVec v = v.scale x) :
    ∑ x ∈ S, (A.eigenspace x).length ≤ n := by
  let free (x : S) := {j : Fin n // j ∉ (A.shift x).pivotColumns}
  let solution (x : S) (j : free x) : Fin n → ℝ :=
    ((A.shift x).rref.freeSolution (A.shift x).pivotColumns j).entry
  have hspan (x : S) : Submodule.span ℝ (Set.range (solution x)) ≤
      Module.End.eigenspace A.toMatrix.toLin' x := by
    rw [Submodule.span_le]
    rintro _ ⟨j, rfl⟩
    have hmem : (A.shift x).rref.freeSolution (A.shift x).pivotColumns j ∈ A.eigenspace x := by
      rw [eigenspace_eq]
      exact List.mem_map_of_mem (mem_freeColumns.mpr j.2)
    exact entry_mem_eigenspace_iff.mpr (h x x.2 _ hmem)
  have hindep : iSupIndep fun x : S => Submodule.span ℝ (Set.range (solution x)) :=
    ((Module.End.eigenspaces_iSupIndep A.toMatrix.toLin').comp Subtype.val_injective).mono hspan
  have hbasis (x : S) : LinearIndependent ℝ (solution x) :=
    linearIndependent_freeSolution (A.shift x).rref (A.shift x).pivotColumns
  have hall : LinearIndependent ℝ fun p : Σ x, free x => solution p.1 p.2 := by
    apply linearIndependent_iUnion_finite hbasis
    intro x t _ hxt
    apply (hindep x).mono_right
    exact iSup₂_mono' fun y hy => ⟨y, fun he => hxt (he ▸ hy), le_rfl⟩
  have hcard := hall.fintype_card_le_finrank
  rw [Fintype.card_sigma, Module.finrank_fin_fun] at hcard
  rw [← Finset.sum_coe_sort]
  simpa only [eigenspace_eq, length_freeSolutions] using hcard

end Mat

namespace DenseMatrix

theorem diagonalize_eq_notDiagonalizable {α : Type} [RootScalar α] {A : DenseMatrix α}
    {found required : Nat}
    (h : A.diagonalize.result = .error (.notDiagonalizable found required)) :
    ∃ S values, A.toSquare = .ok S ∧ (S.eigenvalues .standard).result = .ok values ∧
      found = (collect (S.pairsAt values.toList)).length ∧ required = A.height ∧
      found ≠ required := by
  cases hS : A.toSquare with
  | error e =>
    have hshape : e = .shape .notSquare := by
      unfold toSquare at hS
      split at hS <;> cases hS
      rfl
    rw [diagonalize, Traced.result_bind, Traced.result_lift, hS, hshape] at h
    cases h
  | ok S =>
    rw [result_diagonalize_of_toSquare hS] at h
    obtain ⟨values, hvalues, hcount⟩ := Mat.diagonalize_eq_notDiagonalizable h
    exact ⟨S, values, rfl, hvalues, hcount⟩

/-- The error counts what was collected, which is never as many as required. Over the real numbers
this is the sum of the eigenspaces of the distinct values, and it exceeds what is required only if
one of them has a vector that is no eigenvector, from a reduction that skipped more than zeros. -/
theorem notDiagonalizable_counts {α : Type} [RootScalar α] (A : DenseMatrix α)
    (B : DenseMatrix ℝ) :
    (∀ found required, A.diagonalize.result = .error (.notDiagonalizable found required) →
      ∃ S values, A.toSquare = .ok S ∧ (S.eigenvalues .standard).result = .ok values ∧
        found = (collect (S.pairsAt values.toList)).length ∧ required = A.height ∧
        found ≠ required) ∧
    ∀ found required, B.diagonalize.result = .error (.notDiagonalizable found required) →
      ∃ S values, B.toSquare = .ok S ∧ (S.eigenvalues .standard).result = .ok values ∧
        found = ∑ x ∈ values.toList.toFinset, (S.eigenspace x).length ∧ required = B.height ∧
        (required < found → ∃ x ∈ values.toList, ¬(S.shift x).SkipsOnlyZeros ∧
          ∃ v ∈ S.eigenspace x, S.mulVec v ≠ v.scale x) := by
  constructor
  · intro found required h
    exact diagonalize_eq_notDiagonalizable h
  · intro found required h
    obtain ⟨S, values, hS, hvalues, hfound, hrequired, _⟩ := diagonalize_eq_notDiagonalizable h
    have hsum : found = ∑ x ∈ values.toList.toFinset, (S.eigenspace x).length :=
      hfound.trans (length_collect S.eigenspace values.toList)
    refine ⟨S, values, hS, hvalues, hsum, hrequired, ?_⟩
    intro hexceeds
    by_contra hnone
    have hall : ∀ x ∈ values.toList.toFinset, ∀ v ∈ S.eigenspace x, S.mulVec v = v.scale x := by
      intro x hx v hv
      by_contra hne
      exact hnone ⟨x, List.mem_toFinset.mp hx,
        fun hzero => hne (Mat.mulVec_of_mem_eigenspace hzero hv), v, hv, hne⟩
    have hle := Mat.sum_length_eigenspace_le hall
    omega

/-- A shear has one value and one eigenvector. -/
def sheared : Mat ℚ 2 2 := .ofFn ![![1, 1], ![0, 1]]

theorem notDiagonalizable_sheared :
    let A : DenseMatrix Float := ⟨2, 2, Nat.two_pos, Nat.two_pos, .ofFn ![![1, 1], ![0, 1]]⟩
    let B : DenseMatrix ℝ := ⟨2, 2, Nat.two_pos, Nat.two_pos, sheared.map (Rat.castHom ℝ)⟩
    A.diagonalize.result = .error (.notDiagonalizable 1 2) ∧
    B.diagonalize.result = .error (.notDiagonalizable 1 2) ∧
    (∃ S values, A.toSquare = .ok S ∧ (S.eigenvalues .standard).result = .ok values ∧
      1 = (collect (S.pairsAt values.toList)).length) ∧
    ∃ S values, B.toSquare = .ok S ∧ (S.eigenvalues .standard).result = .ok values ∧
      1 = ∑ x ∈ values.toList.toFinset, (S.eigenspace x).length := by
  intro A B
  have hA : A.diagonalize.result = .error (.notDiagonalizable 1 2) := by decide +kernel
  have hB : B.diagonalize.result = .error (.notDiagonalizable 1 2) := by
    rw [result_diagonalize_of_toSquare (toSquare_mk _ _ _)]
    apply Mat.notDiagonalizable_of_triangular Rat.cast_strictMono <;> decide +kernel
  obtain ⟨hcollected, hsum⟩ := notDiagonalizable_counts A B
  obtain ⟨S, values, hS, hvalues, hcount, _⟩ := hcollected 1 2 hA
  obtain ⟨T, values', hT, hvalues', hcount', _⟩ := hsum 1 2 hB
  exact ⟨hA, hB, ⟨S, values, hS, hvalues, hcount⟩, ⟨T, values', hT, hvalues', hcount'⟩⟩

/-- The two values lie within the tolerance of each other. -/
def adjacent : Mat ℚ 2 2 := .ofFn ![![1, 0], ![0, 1 + 1 / (2 * 10 ^ 10)]]

/-- Each of the two values brings the whole plane. -/
theorem found_adjacent_exceeds_required :
    let A : DenseMatrix Float :=
      ⟨2, 2, Nat.two_pos, Nat.two_pos, .ofFn ![![1, 0], ![0, 1.00000000005]]⟩
    let B : DenseMatrix ℝ := ⟨2, 2, Nat.two_pos, Nat.two_pos, adjacent.map (Rat.castHom ℝ)⟩
    (∀ i j, (A.entries i j).isFinite = true) ∧
    A.diagonalize.result = .error (.notDiagonalizable 4 2) ∧
    B.diagonalize.result = .error (.notDiagonalizable 4 2) ∧ ¬4 < 2 := by
  intro A B
  have hB : B.diagonalize.result = .error (.notDiagonalizable 4 2) := by
    rw [result_diagonalize_of_toSquare (toSquare_mk _ _ _)]
    apply Mat.notDiagonalizable_of_triangular Rat.cast_strictMono <;> decide +kernel
  exact ⟨by decide +kernel, by decide +kernel, hB, by decide⟩

end DenseMatrix

end DenseLinear
