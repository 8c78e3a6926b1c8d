import DenseLinear.Proofs.Embedding
import DenseLinear.Proofs.TriangularIteration

/-!
# Diagonalization

The eigenspace of a value consists of the free solutions of the shifted matrix. If its reduction
skips only zeros, these are eigenvectors for that value. They are collected with their values, so
each column of `P` stands opposite to its own entry of `D`, and `P` intertwines the matrix with `D`.
-/

namespace DenseLinear

namespace Vec

variable {n : Nat}

theorem abs_le_norm (v : Vec ℝ n) (i : Fin n) : |v i| ≤ v.norm := by
  apply Real.abs_le_sqrt
  rw [dot_eq, sq]
  exact Finset.single_le_sum (f := fun i => v i * v i) (fun j _ => mul_self_nonneg _)
    (Finset.mem_univ i)

theorem norm_replicate_zero : (replicate n (0 : ℝ)).norm = 0 := by
  apply norm_eq_of_dot le_rfl
  simp [dot_eq]

theorem toList_eq_ofFn {α : Type} (v : Vec α n) : v.toList = List.ofFn v.entry := by
  conv_lhs => rw [← v.ofFn_entry]
  rw [toList, toArray, ofFn, Vector.toList_toArray, Vector.toList_ofFn]

theorem mem_toList_iff {α : Type} {v : Vec α n} {x : α} : x ∈ v.toList ↔ ∃ i, v i = x := by
  rw [v.toList_eq_ofFn, List.mem_ofFn]

theorem toList_map {α β : Type} (f : α → β) (v : Vec α n) : (v.map f).toList = v.toList.map f := by
  rw [toList_eq_ofFn, toList_eq_ofFn, List.map_ofFn]
  congr 1
  funext i
  exact map_apply f v i

end Vec

section

variable {α : Type} [BEq α] {n : Nat}

theorem collect_concat (pairs : List (Eigenpair α n)) (pair : Eigenpair α n) :
    collect (pairs ++ [pair]) =
      if (collect pairs).any (·.value == pair.value) then collect pairs
      else collect pairs ++ pair.basis.map (⟨·, pair.value⟩) := by
  rw [collect, List.foldl_append]
  rfl

theorem exists_pair_of_mem_collect {pairs : List (Eigenpair α n)} {x : Eigenvector α n}
    (h : x ∈ collect pairs) : ∃ pair ∈ pairs, x.value = pair.value ∧ x.vector ∈ pair.basis := by
  induction pairs using List.reverseRecOn with
  | nil => exact absurd h List.not_mem_nil
  | append_singleton pairs pair ih =>
    have hold (h : x ∈ collect pairs) :
        ∃ p ∈ pairs ++ [pair], x.value = p.value ∧ x.vector ∈ p.basis := by
      obtain ⟨p, hp, hx⟩ := ih h
      exact ⟨p, List.mem_append_left _ hp, hx⟩
    rw [collect_concat] at h
    split at h
    · exact hold h
    · rcases List.mem_append.mp h with h | h
      · exact hold h
      · obtain ⟨v, hv, rfl⟩ := List.mem_map.mp h
        exact ⟨pair, List.mem_append_right _ (List.mem_singleton_self _), rfl, hv⟩

end

section

variable {α β : Type} {n : Nat}

deriving instance DecidableEq for Eigenvector

def Eigenpair.map (f : α → β) (pair : Eigenpair α n) : Eigenpair β n :=
  ⟨f pair.value, pair.basis.map (·.map f)⟩

def Eigenvector.map (f : α → β) (x : Eigenvector α n) : Eigenvector β n :=
  ⟨x.vector.map f, f x.value⟩

/-- Only the equality of the values decides what is collected. -/
theorem collect_map [BEq α] [LawfulBEq α] [BEq β] [LawfulBEq β] {f : α → β} (hf : f.Injective)
    (pairs : List (Eigenpair α n)) :
    collect (pairs.map (Eigenpair.map f)) = (collect pairs).map (Eigenvector.map f) := by
  induction pairs using List.reverseRecOn with
  | nil => rfl
  | append_singleton pairs pair ih =>
    have hseen : ((collect pairs).map (Eigenvector.map f)).any (·.value == f pair.value) =
        (collect pairs).any (·.value == pair.value) := by
      rw [List.any_map]
      congr 1
      funext x
      exact Bool.eq_iff_iff.mpr (by simp [Eigenvector.map, hf.eq_iff])
    rw [List.map_append, List.map_singleton, collect_concat, collect_concat, ih]
    simp only [Eigenpair.map, hseen]
    split_ifs
    · rfl
    · simp [Eigenvector.map]

end

namespace Traced

variable {α β γ : Type}

theorem result_mapM {f : β → Traced α γ} {g : β → γ} (h : ∀ b, (f b).result = .ok (g b))
    (l : List β) : (l.mapM f).result = .ok (l.map g) := by
  induction l with
  | nil => rfl
  | cons b l ih => simp [List.mapM_cons, h, ih, bind]

end Traced

namespace Mat

section

variable {α : Type} [RootScalar α] {n : Nat} {A : Mat α n n}

def pairsAt (A : Mat α n n) (values : List α) : List (Eigenpair α n) :=
  values.map fun x => ⟨x, A.eigenspace x⟩

theorem result_eigenpairs (A : Mat α n n) :
    A.eigenpairs.result =
      (A.eigenvalues .standard).result.map fun values => A.pairsAt values.toList := by
  unfold eigenpairs
  rw [Traced.result_bind]
  cases (A.eigenvalues .standard).result with
  | error e => rfl
  | ok values =>
    apply Traced.result_mapM
    intro x
    rfl

theorem result_diagonalize (A : Mat α n n) :
    A.diagonalize.result = (A.eigenvalues .standard).result.bind fun values =>
      diagonalizeWith (collect (A.pairsAt values.toList)) := by
  unfold diagonalize
  simp only [Traced.result_bind, result_eigenpairs]
  cases (A.eigenvalues .standard).result <;> rfl

/-- As many vectors as columns give a diagonalization, unless the matrix of these columns has no
inverse. -/
theorem diagonalizeWith_toList (columns : Vec (Eigenvector α n) n) :
    diagonalizeWith columns.toList =
      (orError .singular (ofCols (columns.map (·.vector))).inverse).map fun pInv =>
        ⟨ofCols (columns.map (·.vector)), ofDiagonal (columns.map (·.value)), pInv⟩ := by
  have hlength : columns.toList.length = n := columns.size_toArray
  have hcolumns : Vec.ofArray columns.toList.toArray hlength = columns := rfl
  rw [diagonalizeWith, dif_pos hlength]
  simp only [hcolumns]
  cases (ofCols (columns.map (·.vector))).inverse <;> rfl

theorem diagonalizeWith_eq_ok {found : List (Eigenvector α n)} {f : Diagonalization α n}
    (h : diagonalizeWith found = .ok f) :
    ∃ columns : Vec (Eigenvector α n) n, columns.toList = found ∧
      f.p = ofCols (columns.map (·.vector)) ∧ f.d = ofDiagonal (columns.map (·.value)) ∧
      f.p.inverse = some f.pInv := by
  by_cases hn : found.length = n
  · let columns : Vec (Eigenvector α n) n := .ofArray found.toArray hn
    have hrun : diagonalizeWith found = _ := diagonalizeWith_toList columns
    rw [hrun] at h
    cases hp : (ofCols (columns.map (·.vector))).inverse with
    | none => simp [hp, orError, Except.map] at h
    | some pInv =>
      simp only [hp, orError, Except.map, Except.ok.injEq] at h
      subst h
      exact ⟨columns, rfl, rfl, rfl, hp⟩
  · rw [diagonalizeWith, dif_neg hn] at h
    cases h

end

/-- Each diagonal entry with the free solutions of the matrix shifted by it. -/
def diagonalPairs {α : Type} [Scalar α] {n : Nat} (A : Mat α n n) : List (Eigenpair α n) :=
  (Vec.ofFn fun i => A i i).toList.map fun x => ⟨x, (A.shift x).freeSolutions⟩

variable {n : Nat} {A : Mat ℝ n n}

/-- The length test drops the zero vector and nothing else. -/
theorem eigenspace_eq (A : Mat ℝ n n) (x : ℝ) : A.eigenspace x = (A.shift x).freeSolutions := by
  rw [eigenspace, nullSpace_eq]
  split_ifs with hfree
  · have hzero : ¬(Scalar.eps : ℝ) < (Vec.replicate n (0 : ℝ)).norm := by
      rw [Vec.norm_replicate_zero]
      exact not_lt.mpr tolerance_pos.le
    simp [freeSolutions, hfree, hzero]
  · apply List.filter_eq_self.mpr
    intro v hv
    obtain ⟨j, hj, rfl⟩ := List.mem_map.mp hv
    have hone := Vec.abs_le_norm ((A.shift x).rref.freeSolution (A.shift x).pivotColumns j) j
    rw [freeSolution_self (mem_freeColumns.mp hj), abs_one] at hone
    have heps : (Scalar.eps : ℝ) < 1 := by
      change (1 / 10 ^ 10 : ℝ) < 1
      norm_num
    exact decide_eq_true (heps.trans_le hone)

theorem mulVec_shift (A : Mat ℝ n n) (x : ℝ) (v : Vec ℝ n) (i : Fin n) :
    ((A.shift x).mulVec v) i = (A.mulVec v) i - x * v i := by
  have hterm (j : Fin n) : (A.shift x) i j * v j = A i j * v j - if i = j then x * v i else 0 := by
    rw [shift_apply]
    split_ifs with h
    · rw [h, sub_mul]
    · rw [sub_zero]
  rw [mulVec_entry, mulVec_entry, Finset.sum_congr rfl fun j _ => hterm j, Finset.sum_sub_distrib,
    Finset.sum_ite_eq, if_pos (Finset.mem_univ i)]

theorem mulVec_shift_eq_zero_iff {x : ℝ} {v : Vec ℝ n} :
    (A.shift x).mulVec v = .replicate n 0 ↔ A.mulVec v = v.scale x := by
  simp only [Vec.ext_iff, mulVec_shift, Vec.replicate_apply, Vec.scale_apply, sub_eq_zero,
    mul_comm x]

theorem entry_mem_eigenspace_iff {x : ℝ} {v : Vec ℝ n} :
    v.entry ∈ Module.End.eigenspace A.toMatrix.toLin' x ↔ A.mulVec v = v.scale x := by
  rw [Module.End.mem_eigenspace_iff, Matrix.toLin'_apply, toMatrix_mulVec, Vec.ext_iff, funext_iff]
  simp only [Pi.smul_apply, smul_eq_mul, Vec.scale_apply, mul_comm x]

theorem mulVec_of_mem_eigenspace {x : ℝ} (hx : (A.shift x).SkipsOnlyZeros) {v : Vec ℝ n}
    (hv : v ∈ A.eigenspace x) : A.mulVec v = v.scale x := by
  rw [eigenspace_eq] at hv
  exact mulVec_shift_eq_zero_iff.mp (mulVec_eq_zero_of_mem_freeSolutions hx hv)

theorem mul_ofCols {columns : Vec (Eigenvector ℝ n) n}
    (h : ∀ j, A.mulVec (columns j).vector = (columns j).vector.scale (columns j).value) :
    A.mul (ofCols (columns.map (·.vector))) =
      (ofCols (columns.map (·.vector))).mul (ofDiagonal (columns.map (·.value))) := by
  ext i j
  have hj := congrArg (Vec.entry · i) (h j)
  simp only [mulVec_entry, Vec.scale_apply] at hj
  rw [mul_ofDiagonal_apply, mul_entry]
  simp only [ofCols_apply, Vec.map_apply, hj]

theorem diagonalize_eq_ok {f : Diagonalization ℝ n} (h : A.diagonalize.result = .ok f) :
    ∃ columns : Vec (Eigenvector ℝ n) n,
      (∀ j, (columns j).vector ∈ A.eigenspace (columns j).value) ∧
      f.p = ofCols (columns.map (·.vector)) ∧ f.d = ofDiagonal (columns.map (·.value)) ∧
      f.p.inverse = some f.pInv := by
  rw [result_diagonalize] at h
  cases hvalues : (A.eigenvalues .standard).result with
  | error e => simp [hvalues, Except.bind] at h
  | ok values =>
    simp only [hvalues, Except.bind] at h
    obtain ⟨columns, hcolumns, hp, hd, hinv⟩ := diagonalizeWith_eq_ok h
    refine ⟨columns, ?_, hp, hd, hinv⟩
    intro j
    have hmem : columns j ∈ columns.toList := Vec.mem_toList_iff.mpr ⟨j, rfl⟩
    obtain ⟨pair, hpair, hvalue, hvector⟩ := exists_pair_of_mem_collect (hcolumns ▸ hmem)
    obtain ⟨x, _, rfl⟩ := List.mem_map.mp hpair
    rwa [hvalue]

theorem product_of_mul_eq {f : Diagonalization ℝ n} (hcomm : A.mul f.p = f.p.mul f.d)
    (hright : f.p.mul f.pInv = identity n) : f.product = A := by
  rw [Diagonalization.product, ← hcomm, mul_mul, hright, mul_identity]

section

variable {F : Type} [Field F] [LinearOrder F] [IsStrictOrderedRing F] {φ : F →+* ℝ}
  (hφ : StrictMono φ)

include hφ

theorem eigenspace_map (A : Mat F n n) (x : F) :
    (A.map φ).eigenspace (φ x) = (A.shift x).freeSolutions.map (·.map φ) := by
  rw [eigenspace_eq, shift_map, freeSolutions_map hφ]

theorem pairsAt_map (A : Mat F n n) (values : List F) :
    (A.map φ).pairsAt (values.map φ) =
      (values.map fun x => ⟨x, (A.shift x).freeSolutions⟩).map (Eigenpair.map φ) := by
  simp only [pairsAt, List.map_map]
  apply List.map_congr_left
  intro x _
  exact congrArg (Eigenpair.mk (φ x)) (eigenspace_map hφ A x)

theorem eigenvalues_map_of_triangular {A : Mat F n n} (hbelow : ∀ a b, b < a → A a b = 0)
    (hdiag : ∀ i, 1 / 10 ^ 10 ≤ |A i i|) :
    ((A.map φ).eigenvalues .standard).result = .ok ((Vec.ofFn fun i => A i i).map φ) := by
  have hbelow' (a b : Fin n) (h : b < a) : (A.map φ) a b = 0 := by
    rw [map_apply, hbelow a b h, map_zero]
  have hdiag' (i : Fin n) : 1 / 10 ^ 10 ≤ |(A.map φ) i i| := by
    have habs : |(A.map φ) i i| = φ |A i i| := by
      rw [map_apply]
      exact abs_embedding hφ _
    rw [habs]
    simpa [map_ofNat] using hφ.monotone (hdiag i)
  have hvalues : (Vec.ofFn fun i => (A.map φ) i i) = (Vec.ofFn fun i => A i i).map φ := by
    ext i
    simp only [Vec.entry_ofFn, Vec.map_apply, map_apply]
  rw [← hvalues, eigenvalues_standard_of_triangular hbelow' hdiag']

/-- The run from a triangular matrix answers with its diagonal, so its eigenvectors are collected over
the smaller field. -/
theorem result_diagonalize_of_triangular [BEq F] [LawfulBEq F] {A : Mat F n n}
    (hbelow : ∀ a b, b < a → A a b = 0) (hdiag : ∀ i, 1 / 10 ^ 10 ≤ |A i i|) :
    (A.map φ).diagonalize.result =
      diagonalizeWith ((collect A.diagonalPairs).map (Eigenvector.map φ)) := by
  rw [result_diagonalize, eigenvalues_map_of_triangular hφ hbelow hdiag, Except.bind, Vec.toList_map,
    pairsAt_map hφ, collect_map hφ.injective, diagonalPairs]

theorem diagonalizeWith_map {columns : Vec (Eigenvector F n) n} {pInv : Mat F n n}
    (h : (ofCols (columns.map (·.vector))).inverse = some pInv) :
    diagonalizeWith (columns.toList.map (Eigenvector.map φ)) =
      .ok ⟨(ofCols (columns.map (·.vector))).map φ, (ofDiagonal (columns.map (·.value))).map φ,
        pInv.map φ⟩ := by
  have hp : ofCols ((columns.map (Eigenvector.map φ)).map (·.vector)) =
      (ofCols (columns.map (·.vector))).map φ := by
    ext i j
    simp [Eigenvector.map]
  have hd : ofDiagonal ((columns.map (Eigenvector.map φ)).map (·.value)) =
      (ofDiagonal (columns.map (·.value))).map φ := by
    ext i j
    simp [Eigenvector.map, apply_ite φ]
  rw [← Vec.toList_map, diagonalizeWith_toList, hp, hd, inverse_map hφ, h]
  rfl

end

end Mat

namespace DenseMatrix

theorem result_eigenvector_of_toSquare {α : Type} [RootScalar α] {A : DenseMatrix α}
    {S : Mat α A.height A.height} (hS : A.toSquare = .ok S) (x : α) :
    (A.eigenvector x).result = .ok ((S.eigenspace x).map (·.toArray)) := by
  rw [eigenvector, hS]
  rfl

/-- A basis found for a value of a smaller field has its entries there. -/
theorem basis_eq_of_eigenvector {F : Type} [Field F] [LinearOrder F] [IsStrictOrderedRing F]
    {φ : F →+* ℝ} (hφ : StrictMono φ) {A : DenseMatrix ℝ} {S : Mat F A.height A.height}
    (hS : A.toSquare = .ok (S.map φ)) {x : F} {basis : List (Vec ℝ A.height)}
    (h : (A.eigenvector (φ x)).result = .ok (basis.map (·.toArray))) :
    basis = (S.shift x).freeSolutions.map (·.map φ) := by
  have hinj : (Vec.toArray : Vec ℝ A.height → Array ℝ).Injective := fun _ _ => Vec.toArray_inj.mp
  rw [result_eigenvector_of_toSquare hS, Except.ok.injEq, Mat.eigenspace_map hφ] at h
  exact (hinj.list_map h).symm

theorem result_diagonalize_of_toSquare {α : Type} [RootScalar α] {A : DenseMatrix α}
    {S : Mat α A.height A.height} (hS : A.toSquare = .ok S) :
    A.diagonalize.result = S.diagonalize.result := by
  unfold diagonalize
  rw [hS]
  rfl

/-- If the reductions that found the eigenvectors skipped only zeros, then the matrix times `P` is
`P` times the diagonal `D`, the inverse of `P` is two-sided, and the product gives the matrix
back. -/
theorem diagonalize_reconstructs (A : DenseMatrix ℝ) (S : Mat ℝ A.height A.height)
    (hS : A.toSquare = .ok S) (f : Diagonalization ℝ A.height) (h : A.diagonalize.result = .ok f)
    (hskip : ∀ i, (S.shift (f.d i i)).SkipsOnlyZeros) :
    (∃ T, A.mul (A.ofSquare f.p) = .ok T ∧ (A.ofSquare f.p).mul (A.ofSquare f.d) = .ok T) ∧
    (∀ i j, i ≠ j → f.d i j = 0) ∧
    (∃ I, identity A.height = .ok I ∧ (A.ofSquare f.p).mul (A.ofSquare f.pInv) = .ok I ∧
      (A.ofSquare f.pInv).mul (A.ofSquare f.p) = .ok I) ∧
    A.ofSquare f.product = A := by
  rw [result_diagonalize_of_toSquare hS] at h
  obtain ⟨m, n, hm, hn, E⟩ := A
  obtain rfl : n = m := width_eq_of_toSquare hS
  obtain rfl : E = S := Except.ok.inj ((toSquare_mk hm hn E).symm.trans hS)
  obtain ⟨columns, hcolumns, hp, hd, hinv⟩ := Mat.diagonalize_eq_ok h
  have hvalue (j : Fin n) : f.d j j = (columns j).value := by simp [hd]
  have hcomm : E.mul f.p = f.p.mul f.d := by
    rw [hp, hd]
    exact Mat.mul_ofCols fun j => Mat.mulVec_of_mem_eigenspace (hvalue j ▸ hskip j) (hcolumns j)
  have hleft : f.pInv.mul f.p = .identity n := Mat.mul_of_inverse hinv
  have hright : f.p.mul f.pInv = .identity n := Mat.mul_eq_identity_comm.mp hleft
  refine ⟨⟨_, mul_mk hm hm _ _, ?_⟩, ?_, ⟨_, identity_mk hm, ?_, ?_⟩, ?_⟩
  · simp only [ofSquare, mul_mk, hcomm]
  · intro i j hij
    rw [hd, Mat.ofDiagonal_apply, if_neg hij]
  · simp only [ofSquare, mul_mk, hright]
  · simp only [ofSquare, mul_mk, hleft]
  · simp only [ofSquare, Mat.product_of_mul_eq hcomm hright]

/-- The two equal values stand apart on the diagonal. -/
def interleaved : Mat ℚ 3 3 := .ofFn ![![2, 1, 0], ![0, 3, 0], ![0, 0, 2]]

/-- Its eigenvectors, those of the repeated value first. -/
def regrouped : Mat ℚ 3 3 := .ofFn ![![1, 0, 1], ![0, 0, 1], ![0, 1, 0]]

theorem result_diagonalize_interleaved :
    (interleaved.map (Rat.castHom ℝ)).diagonalize.result =
      .ok ⟨regrouped.map (Rat.castHom ℝ),
        (Mat.ofDiagonal (.ofFn ![2, 2, 3])).map (Rat.castHom ℝ),
        (Mat.ofFn ![![1, -1, 0], ![0, 0, 1], ![0, 1, 0]]).map (Rat.castHom ℝ)⟩ := by
  have hφ : StrictMono (Rat.castHom ℝ) := Rat.cast_strictMono
  let columns : Vec (Eigenvector ℚ 3) 3 :=
    .ofFn ![⟨.ofFn ![1, 0, 0], 2⟩, ⟨.ofFn ![0, 0, 1], 2⟩, ⟨.ofFn ![1, 1, 0], 3⟩]
  have hcollect : collect interleaved.diagonalPairs = columns.toList := by decide +kernel
  have hp : Mat.ofCols (columns.map (·.vector)) = regrouped := by decide +kernel
  have hd : columns.map (·.value) = .ofFn ![2, 2, 3] := by decide +kernel
  have hinv : regrouped.inverse = some (.ofFn ![![1, -1, 0], ![0, 0, 1], ![0, 1, 0]]) := by
    decide +kernel
  have hrun := Mat.result_diagonalize_of_triangular hφ (A := interleaved) (by decide +kernel)
    (by decide +kernel)
  rwa [hcollect, Mat.diagonalizeWith_map hφ (hp ▸ hinv), hp, hd] at hrun

theorem diagonalize_interleaved :
    let φ := Rat.castHom ℝ
    let A : DenseMatrix ℝ := ⟨3, 3, Nat.succ_pos 2, Nat.succ_pos 2, interleaved.map φ⟩
    ∃ f : Diagonalization ℝ 3, A.diagonalize.result = .ok f ∧ f.p = regrouped.map φ ∧
      f.d = (Mat.ofDiagonal (.ofFn ![2, 2, 3])).map φ ∧
      (∀ i, ((interleaved.map φ).shift (f.d i i)).SkipsOnlyZeros) ∧
      (∃ T, A.mul (A.ofSquare f.p) = .ok T ∧ (A.ofSquare f.p).mul (A.ofSquare f.d) = .ok T) ∧
      (∃ I, identity 3 = .ok I ∧ (A.ofSquare f.p).mul (A.ofSquare f.pInv) = .ok I ∧
        (A.ofSquare f.pInv).mul (A.ofSquare f.p) = .ok I) ∧
      A.ofSquare f.product = A := by
  intro φ A
  have hφ : StrictMono φ := Rat.cast_strictMono
  have hA : A.toSquare = .ok (interleaved.map φ) := toSquare_mk _ _ _
  have hf := (result_diagonalize_of_toSquare hA).trans result_diagonalize_interleaved
  have hskip (i : Fin 3) : ((interleaved.map φ).shift
      (((Mat.ofDiagonal (.ofFn ![2, 2, 3])).map φ) i i)).SkipsOnlyZeros := by
    rw [Mat.map_apply, Mat.shift_map, Mat.skipsOnlyZeros_map hφ]
    revert i
    decide +kernel
  obtain ⟨hcomm, _, hinverse, hproduct⟩ := diagonalize_reconstructs A _ hA _ hf hskip
  exact ⟨_, hf, rfl, rfl, hskip, hcomm, hinverse, hproduct⟩

end DenseMatrix

end DenseLinear
