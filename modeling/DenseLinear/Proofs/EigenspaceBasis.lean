import DenseLinear.Proofs.BasisLists
import DenseLinear.Proofs.NullSpaceBasis
import DenseLinear.Proofs.SymmetricSpectrum

/-!
# Bases of eigenspaces

The length test on the null space of the shifted matrix drops the zero vector, which stands there if
no column is free, and no vector of a free column, since that one is one in its column. So there is
one vector for each free column, whatever the reduction skipped. If it skipped only zeros, these
vectors are a basis of the eigenspace, and there are none exactly if the value is no eigenvalue.
-/

namespace DenseLinear

theorem IsBasis.nil_iff {K : Type} [Field K] {n : Nat} {l : List (Vec K n)}
    {S : Submodule K (Fin n → K)} (h : IsBasis l S) : l = [] ↔ S = ⊥ := by
  rw [← List.length_eq_zero_iff, ← h.finrank_eq, Submodule.finrank_eq_zero]

namespace Mat

variable {n : Nat} {A : Mat ℝ n n} {x : ℝ}

theorem kernel_shift (A : Mat ℝ n n) (x : ℝ) :
    (A.shift x).kernel = Module.End.eigenspace A.toMatrix.toLin' x := by
  ext w
  have hof : (Vec.ofFn w).entry = w := funext (Vec.entry_ofFn w)
  rw [← hof, entry_mem_kernel_iff, mulVec_shift_eq_zero_iff, entry_mem_eigenspace_iff]

theorem hasEigenvalue_iff_eigenspace :
    A.HasEigenvalue x ↔ Module.End.eigenspace A.toMatrix.toLin' x ≠ ⊥ := by
  rw [Submodule.ne_bot_iff]
  constructor
  · rintro ⟨v, hv, hAv⟩
    refine ⟨v.entry, entry_mem_eigenspace_iff.mpr hAv, fun hzero => hv ?_⟩
    ext i
    rw [hzero, Vec.replicate_apply, Pi.zero_apply]
  · rintro ⟨w, hw, hne⟩
    have hof : (Vec.ofFn w).entry = w := funext (Vec.entry_ofFn w)
    refine ⟨.ofFn w, fun hzero => hne ?_, entry_mem_eigenspace_iff.mp (hof.symm ▸ hw)⟩
    funext i
    rw [← hof, hzero, Vec.replicate_apply, Pi.zero_apply]

theorem isBasis_eigenspace (hx : (A.shift x).SkipsOnlyZeros) :
    IsBasis (A.eigenspace x) (Module.End.eigenspace A.toMatrix.toLin' x) := by
  rw [eigenspace_eq, ← kernel_shift]
  exact isBasis_freeSolutions hx

theorem ne_zero_of_mem_eigenspace {v : Vec ℝ n} (hv : v ∈ A.eigenspace x) : v ≠ .replicate n 0 := by
  rintro rfl
  have hlong := of_decide_eq_true (List.mem_filter.mp hv).2
  rw [Vec.norm_replicate_zero] at hlong
  exact hlong.not_gt tolerance_pos

end Mat

namespace DenseMatrix

theorem mulVec_of_toSquare {α : Type} [Scalar α] {A : DenseMatrix α} {S : Mat α A.height A.height}
    (hS : A.toSquare = .ok S) (v : Vec α A.height) :
    A.mulVec v.toArray = .ok (S.mulVec v).toArray := by
  have hrun : (A.ofSquare S).mulVec v.toArray = .ok (S.mulVec v).toArray := mulVec_mk _ _ S v
  exact (congrArg (·.mulVec v.toArray) (eq_ofSquare_of_toSquare hS)).trans hrun

/-- There is one vector for each free column of the shifted matrix, in increasing order, which is one
there and zero in the other free columns. So none is zero, and none is missing from the null space
but the zero vector that stands for no free column. If the reduction of the shifted matrix skips
only zeros, the vectors are a basis of all that the matrix scales by the value, and there are none
exactly if it is no eigenvalue. -/
theorem eigenvector_basis_of_free_columns (A : DenseMatrix ℝ) (S : Mat ℝ A.height A.height)
    (hS : A.toSquare = .ok S) (x : ℝ) :
    ∃ (pivots free : List (Fin A.height)) (nulls basis : List (Vec ℝ A.height)),
      (A.ofSquare (S.shift x)).pivotColumns.result = .ok (pivots.map (·.val)) ∧
      (A.ofSquare (S.shift x)).nullSpace.result = .ok (nulls.map (·.toArray)) ∧
      (A.eigenvector x).result = .ok (basis.map (·.toArray)) ∧
      free.Pairwise (· < ·) ∧ (∀ j, j ∈ free ↔ j ∉ pivots) ∧
      basis.Forall₂ (fun v j => ∀ l ∈ free, v l = if l = j then 1 else 0) free ∧
      (∀ v ∈ basis, v ≠ .replicate A.height 0) ∧
      (if free = [] then nulls = [.replicate A.height 0] ∧ basis = [] else basis = nulls) ∧
      ((S.shift x).SkipsOnlyZeros →
        (∃ E : Submodule ℝ (Fin A.height → ℝ), IsBasis basis E ∧
          ∀ v : Vec ℝ A.height, v.entry ∈ E ↔ A.mulVec v.toArray = .ok (v.scale x).toArray) ∧
        (basis = [] ↔ ¬S.HasEigenvalue x)) := by
  refine ⟨(S.shift x).pivotColumns, (S.shift x).freeColumns, (S.shift x).nullSpace,
    S.eigenspace x, rfl, rfl, result_eigenvector_of_toSquare hS x, (S.shift x).increasing_freeColumns,
    fun _ => Mat.mem_freeColumns, ?_, fun _ => Mat.ne_zero_of_mem_eigenspace, ?_, ?_⟩
  · rw [Mat.eigenspace_eq]
    exact (S.shift x).forall₂_freeSolutions
  · rw [Mat.eigenspace_eq, Mat.nullSpace_eq]
    split_ifs with hfree
    · exact ⟨rfl, by rw [Mat.freeSolutions, hfree, List.map_nil]⟩
    · rfl
  · intro hx
    have hbasis := Mat.isBasis_eigenspace hx
    refine ⟨⟨_, hbasis, ?_⟩, ?_⟩
    · intro v
      rw [Mat.entry_mem_eigenspace_iff, mulVec_of_toSquare hS, Except.ok.injEq, Vec.toArray_inj]
    · rw [hbasis.nil_iff, Mat.hasEigenvalue_iff_eigenspace, not_not]

/-- Two vectors for the repeated value, and none for a value that is missing on the diagonal. -/
theorem eigenvector_basis_interleaved :
    let φ := Rat.castHom ℝ
    let A : DenseMatrix ℝ := ⟨3, 3, Nat.succ_pos 2, Nat.succ_pos 2, interleaved.map φ⟩
    ((interleaved.map φ).shift (φ 2)).SkipsOnlyZeros ∧
    ((interleaved.map φ).shift (φ 1)).SkipsOnlyZeros ∧
    (∃ basis : List (Vec ℝ 3), basis = [.ofFn ![1, 0, 0], .ofFn ![0, 0, 1]] ∧
      (A.eigenvector (φ 2)).result = .ok (basis.map (·.toArray)) ∧
      ∃ E : Submodule ℝ (Fin 3 → ℝ), IsBasis basis E ∧
        ∀ v : Vec ℝ 3, v.entry ∈ E ↔ A.mulVec v.toArray = .ok (v.scale (φ 2)).toArray) ∧
    (A.eigenvector (φ 1)).result = .ok [] ∧ ¬(interleaved.map φ).HasEigenvalue (φ 1) := by
  intro φ A
  have hφ : StrictMono φ := Rat.cast_strictMono
  have hA : A.toSquare = .ok (interleaved.map φ) := toSquare_mk _ _ _
  have hskip : (interleaved.shift 2).SkipsOnlyZeros ∧ (interleaved.shift 1).SkipsOnlyZeros := by
    decide +kernel
  rw [← Mat.skipsOnlyZeros_map hφ, ← Mat.skipsOnlyZeros_map hφ, ← Mat.shift_map, ← Mat.shift_map]
    at hskip
  have hfree : (interleaved.shift 2).freeSolutions = [.ofFn ![1, 0, 0], .ofFn ![0, 0, 1]] ∧
      (interleaved.shift 1).freeSolutions = [] := by
    decide +kernel
  have hvectors : ([.ofFn ![1, 0, 0], .ofFn ![0, 0, 1]] : List (Vec ℚ 3)).map (·.map φ) =
      [.ofFn ![1, 0, 0], .ofFn ![0, 0, 1]] := by
    simp [Vec.ext_iff, Fin.forall_fin_succ]
  refine ⟨hskip.1, hskip.2, ?_, ?_⟩
  · obtain ⟨_, _, _, basis, _, _, hresult, _, _, _, _, _, hspan⟩ :=
      eigenvector_basis_of_free_columns A _ hA (φ 2)
    refine ⟨basis, ?_, hresult, (hspan hskip.1).1⟩
    rw [basis_eq_of_eigenvector hφ hA hresult, hfree.1]
    exact hvectors
  · obtain ⟨_, _, _, basis, _, _, hresult, _, _, _, _, _, hspan⟩ :=
      eigenvector_basis_of_free_columns A _ hA (φ 1)
    have hnil : basis = [] := by
      rw [basis_eq_of_eigenvector hφ hA hresult, hfree.2, List.map_nil]
    refine ⟨?_, (hspan hskip.2).2.mp hnil⟩
    rw [hresult, hnil, List.map_nil]

end DenseMatrix

end DenseLinear
