import DenseLinear.Proofs.NullSpace
import DenseLinear.Proofs.Subspaces

/-!
# The basis of the null space

The free columns are as many as the rank leaves, and so is the dimension of the kernel. The
solutions that the free columns give are linearly independent and in the kernel, so they span it.
Without free columns nothing but zero is in the kernel; zero itself is answered then, which is not a
basis.
-/

namespace DenseLinear

namespace Mat

section

variable {K : Type} [Field K] {m n : Nat}

def kernel (A : Mat K m n) : Submodule K (Fin n → K) := LinearMap.ker A.toMatrix.mulVecLin

theorem rank_add_finrank_kernel (A : Mat K m n) :
    A.toMatrix.rank + Module.finrank K A.kernel = n := by
  have h := A.toMatrix.mulVecLin.finrank_range_add_finrank_ker
  rwa [Module.finrank_fintype_fun_eq_card, Fintype.card_fin] at h

theorem entry_mem_kernel_iff [LinearOrder K] {A : Mat K m n} {v : Vec K n} :
    v.entry ∈ A.kernel ↔ A.mulVec v = .replicate m 0 := by
  rw [kernel, LinearMap.mem_ker, Matrix.mulVecLin_apply, toMatrix_mulVec, Vec.ext_iff, funext_iff]
  simp only [Vec.replicate_apply, Pi.zero_apply]

end

variable {K : Type} [Field K] [LinearOrder K] [IsStrictOrderedRing K] {m n : Nat} {A : Mat K m n}

theorem length_freeColumns_add_rank (hA : A.SkipsOnlyZeros) :
    A.freeColumns.length + A.rank = n := by
  have hnodup : A.pivotColumns.Nodup := pivotColumns_eq hA ▸ (rref_isReduced hA).nodup
  have hfree : A.freeColumns.toFinset = A.pivotColumns.toFinsetᶜ := by
    ext j
    rw [List.mem_toFinset, mem_freeColumns, Finset.mem_compl, List.mem_toFinset]
  rw [← length_pivotColumns, ← List.toFinset_card_of_nodup A.nodup_freeColumns, hfree,
    ← List.toFinset_card_of_nodup hnodup, Finset.card_compl_add_card, Fintype.card_fin]

theorem isBasis_freeSolutions (hA : A.SkipsOnlyZeros) : IsBasis A.freeSolutions A.kernel := by
  have hindependent := linearIndependent_freeSolution A.rref A.pivotColumns
  apply isBasis_map A.nodup_freeColumns (fun _ => mem_freeColumns) hindependent
  apply Submodule.eq_of_le_of_finrank_eq
  · apply Submodule.span_le.mpr
    rintro _ ⟨j, rfl⟩
    exact entry_mem_kernel_iff.mpr (mulVec_eq_zero_of_mem_freeSolutions hA
      (List.mem_map_of_mem (mem_freeColumns.mpr j.2)))
  · have hfree := length_freeColumns_add_rank hA
    have hkernel := A.rank_add_finrank_kernel
    rw [← rank_eq hA] at hkernel
    rw [finrank_span_eq_card hindependent, ← length_freeSolutions, freeSolutions, List.length_map]
    omega

/-- Nothing is free exactly if the rank is full. -/
theorem freeColumns_eq_nil_iff (hA : A.SkipsOnlyZeros) : A.freeColumns = [] ↔ A.rank = n := by
  have h := length_freeColumns_add_rank hA
  rw [← List.length_eq_zero_iff]
  omega

theorem kernel_eq_bot (hA : A.SkipsOnlyZeros) (hrank : A.rank = n) : A.kernel = ⊥ := by
  have h := A.rank_add_finrank_kernel
  rw [← rank_eq hA, hrank] at h
  exact Submodule.finrank_eq_zero.mp (Nat.add_eq_left.mp h)

/-- The difference of machine words does not wrap around. -/
theorem toNat_nullity (hA : A.SkipsOnlyZeros) (hn : n < UInt64.size) :
    A.nullity.toNat = A.freeColumns.length := by
  have hfree := length_freeColumns_add_rank hA
  have hrank : A.rank < UInt64.size := by omega
  have hle : UInt64.ofNat A.rank ≤ UInt64.ofNat n := by
    rw [UInt64.le_iff_toNat_le, UInt64.toNat_ofNat_of_lt' hrank, UInt64.toNat_ofNat_of_lt' hn]
    omega
  rw [nullity, UInt64.toNat_sub_of_le _ _ hle, UInt64.toNat_ofNat_of_lt' hrank,
    UInt64.toNat_ofNat_of_lt' hn]
  omega

end Mat

namespace DenseMatrix

variable {K : Type} [Field K] [LinearOrder K] [IsStrictOrderedRing K]

/-- If only zeros are skipped, either the rank is smaller than the width, and the computed vectors
are a basis of the kernel, as many as the nullity; or it is the width, the kernel is zero, and the
zero vector alone is answered. -/
theorem nullSpace_basis_or_zero (A : DenseMatrix K) (hA : A.entries.SkipsOnlyZeros) :
    ∃ (r : Nat) (u : UInt64) (vectors : List (Vec K A.width)),
      A.rank.result = .ok r ∧ A.nullity.result = .ok u ∧
      A.nullSpace.result = .ok (vectors.map (·.toArray)) ∧
      ((r < A.width ∧
          (∀ v ∈ vectors, A.mulVec v.toArray = .ok (Vec.replicate A.height 0).toArray) ∧
          IsBasis vectors A.entries.kernel ∧
          (A.width < UInt64.size → vectors.length = u.toNat)) ∨
        (r = A.width ∧ A.entries.kernel = ⊥ ∧ vectors = [.replicate A.width 0])) := by
  have hnil := Mat.freeColumns_eq_nil_iff hA
  have hlength := Mat.length_freeColumns_add_rank hA
  refine ⟨A.entries.rank, A.entries.nullity, A.entries.nullSpace, rfl, rfl, rfl, ?_⟩
  rw [Mat.nullSpace_eq]
  by_cases hfull : A.entries.rank = A.width
  · rw [if_pos (hnil.mpr hfull)]
    exact .inr ⟨hfull, Mat.kernel_eq_bot hA hfull, rfl⟩
  · rw [if_neg (mt hnil.mp hfull)]
    refine .inl ⟨by omega, ?_, Mat.isBasis_freeSolutions hA, ?_⟩
    · intro v hv
      have hzero := Mat.mulVec_eq_zero_of_mem_freeSolutions hA hv
      exact mulVec_eq_ok_iff.mpr ⟨v, rfl, congrArg Vec.toArray hzero⟩
    · intro hwidth
      rw [Mat.toNat_nullity hA hwidth, Mat.freeSolutions, List.length_map]

def narrow : Mat ℚ 3 2 := .ofFn ![![0, 1], ![2, 0], ![4, 3]]

theorem nullSpace_crossed_narrow :
    let A : DenseMatrix ℚ := ⟨3, 4, Nat.succ_pos 2, Nat.succ_pos 3, crossed⟩
    let B : DenseMatrix ℚ := ⟨3, 2, Nat.succ_pos 2, Nat.two_pos, narrow⟩
    crossed.SkipsOnlyZeros ∧ narrow.SkipsOnlyZeros ∧
    A.rank.result = .ok 2 ∧ A.nullSpace.result = .ok [#[-2, 1, 0, 0], #[-3, 0, -1, 1]] ∧
    (∃ vectors : List (Vec ℚ 4), A.nullSpace.result = .ok (vectors.map (·.toArray)) ∧
      IsBasis vectors crossed.kernel) ∧
    B.rank.result = .ok 2 ∧ B.nullSpace.result = .ok [#[0, 0]] ∧ narrow.kernel = ⊥ := by
  have hskips : crossed.SkipsOnlyZeros ∧ narrow.SkipsOnlyZeros := by decide +kernel
  have hrank : crossed.rank = 2 ∧ narrow.rank = 2 := by decide +kernel
  have hcrossed : crossed.nullSpace.map (·.toArray) = [#[-2, 1, 0, 0], #[-3, 0, -1, 1]] := by
    decide +kernel
  have hnarrow : narrow.nullSpace.map (·.toArray) = [#[0, 0]] := by decide +kernel
  intro A B
  have hA : A.rank.result = .ok 2 := congrArg Except.ok hrank.1
  have hB : B.rank.result = .ok 2 := congrArg Except.ok hrank.2
  refine ⟨hskips.1, hskips.2, hA, congrArg Except.ok hcrossed, ?_, hB,
    congrArg Except.ok hnarrow, ?_⟩
  · obtain ⟨r, _, vectors, hr, _, hresult, ⟨_, _, hbasis, _⟩ | ⟨hfull, _⟩⟩ :=
      nullSpace_basis_or_zero A hskips.1
    · exact ⟨vectors, hresult, hbasis⟩
    · rw [hfull, hA] at hr
      cases hr
  · obtain ⟨r, _, _, hr, _, _, ⟨hlt, _⟩ | ⟨_, hkernel, _⟩⟩ := nullSpace_basis_or_zero B hskips.2
    · rw [hB, Except.ok.injEq] at hr
      exact absurd hr hlt.ne'
    · exact hkernel

end DenseMatrix

end DenseLinear
