import DenseLinear.Proofs.EigenvectorGroups
import DenseLinear.Proofs.PermutationMatrix
import DenseLinear.Proofs.RepeatedReduction
import DenseLinear.Proofs.SymmetricSpectrum

/-!
# Diagonal matrices

The reduction of a diagonal matrix finds the pivot of each column on the diagonal, and does not touch
the columns after it. So the free columns are those of the zeros, and their solutions are unit
vectors. The eigenvectors of the values on the diagonal are therefore the unit vectors at the places
of each value, and diagonalization sorts the diagonal by value with a permutation matrix.
-/

namespace DenseLinear

def Vec.unit {α : Type} [Zero α] [One α] {n : Nat} (j : Fin n) : Vec α n :=
  .ofFn fun i => if i = j then 1 else 0

@[simp] theorem Vec.unit_apply {α : Type} [Zero α] [One α] {n : Nat} (i j : Fin n) :
    (Vec.unit j : Vec α n) i = if i = j then 1 else 0 := by
  simp [unit]

section

variable {α : Type} {n : Nat}

/-- The places of the entries, those of one value together and in increasing order, and the values in
the order in which they first occur. -/
def Vec.placesByValue [BEq α] (v : Vec α n) : List (Fin n) :=
  v.toList.eraseDups.flatMap fun x => (List.finRange n).filter fun i => v i == x

variable [BEq α] [LawfulBEq α]

theorem Vec.mem_placesByValue (v : Vec α n) (i : Fin n) : i ∈ v.placesByValue := by
  refine List.mem_flatMap.mpr ⟨v i, ?_, ?_⟩
  · exact List.mem_eraseDups.mpr (Vec.mem_toList_iff.mpr ⟨i, rfl⟩)
  · exact List.mem_filter.mpr ⟨List.mem_finRange i, beq_self_eq_true _⟩

theorem Vec.nodup_placesByValue (v : Vec α n) : v.placesByValue.Nodup := by
  refine List.nodup_flatMap.mpr ⟨fun x _ => (List.nodup_finRange n).filter _, ?_⟩
  refine (nodup_eraseDups v.toList).imp ?_
  intro x y hne i hx hy
  exact hne ((eq_of_beq (List.mem_filter.mp hx).2).symm.trans (eq_of_beq (List.mem_filter.mp hy).2))

/-- Every place is listed once. -/
theorem Vec.exists_perm_placesByValue (v : Vec α n) :
    ∃ σ : Equiv.Perm (Fin n), List.ofFn σ = v.placesByValue := by
  let get := v.nodup_placesByValue.getEquivOfForallMemList _ v.mem_placesByValue
  have hlength : v.placesByValue.length = n := by simpa using Fintype.card_congr get
  refine ⟨(finCongr hlength.symm).trans get, List.ext_getElem ?_ ?_⟩
  · rw [List.length_ofFn, hlength]
  · intro k _ _
    rw [List.getElem_ofFn]
    rfl

end

namespace Mat

section

variable {K : Type} [Field K] [LinearOrder K] {n : Nat} {d : Vec K n}

/-- No more than `k` pivots were found, and the columns from `k` on are those of `A`. -/
structure IntactFrom (A : Mat K n n) (k : Nat) (s : Reduction K n n) : Prop where
  cursor_le : s.cursor ≤ k
  column : ∀ j : Fin n, k ≤ j → ∀ i, s.matrix i j = A i j

variable [IsStrictOrderedRing K]

theorem IntactFrom.pivot_row {c r : Fin n} {s : Reduction K n n}
    (hs : (ofDiagonal d).IntactFrom c s) (hr : Significant (s.matrix r c)) : r = c := by
  rw [hs.column c le_rfl, ofDiagonal_apply] at hr
  by_contra hne
  rw [if_neg hne] at hr
  exact not_significant_zero hr

/-- The pivot row and the row it is exchanged with are zero in the columns that follow. -/
theorem IntactFrom.step {c : Fin n} {s : Reduction K n n} (hs : (ofDiagonal d).IntactFrom c s) :
    (ofDiagonal d).IntactFrom (c + 1) (reduceColumn c s) := by
  rcases reduceColumn_cases c s with ⟨he, _⟩ | ⟨h, r, hr, hsig, he⟩
  · rw [he]
    exact ⟨Nat.le_succ_of_le hs.cursor_le, fun j hj => hs.column j (Nat.le_of_succ_le hj)⟩
  · obtain rfl : r = c := hs.pivot_row hsig
    rw [he]
    constructor
    · rw [Reduction.cursor, List.length_append]
      exact Nat.succ_le_succ hs.cursor_le
    · intro j hj i
      have hzero (p : Fin n) (hp : p.val ≤ r) : s.matrix p j = 0 := by
        rw [hs.column j (Nat.le_of_succ_le hj), ofDiagonal_apply, if_neg]
        rintro rfl
        omega
      rw [pivotOn_column_of_zero (hzero _ hr) (hzero r le_rfl)]
      exact hs.column j (Nat.le_of_succ_le hj) i

theorem reductionUpTo_ofDiagonal (d : Vec K n) (k : Nat) (h : k ≤ n) :
    (ofDiagonal d).IntactFrom k ((ofDiagonal d).reductionUpTo k h) := by
  refine afterSteps_induction (fun k s => (ofDiagonal d).IntactFrom k s) ?_ ?_ k h
  · exact ⟨le_rfl, fun _ _ _ => rfl⟩
  · exact fun c s hs => hs.step

theorem skipsOnlyZeros_ofDiagonal (hd : ∀ i, d i = 0 ∨ Significant (d i)) :
    (ofDiagonal d).SkipsOnlyZeros := by
  intro c hskip r hr
  have hentry := (reductionUpTo_ofDiagonal d c c.isLt.le).column c le_rfl r
  have hsmall := hskip r hr
  rw [hentry, ofDiagonal_apply] at hsmall ⊢
  split_ifs at hsmall ⊢ with h
  · exact (hd r).resolve_right hsmall
  · rfl

theorem mem_pivotColumns_ofDiagonal (hd : ∀ i, d i = 0 ∨ Significant (d i)) {c : Fin n} :
    c ∈ (ofDiagonal d).pivotColumns ↔ d c ≠ 0 := by
  have hs := reductionUpTo_ofDiagonal d c c.isLt.le
  have hentry : ((ofDiagonal d).reductionUpTo c c.isLt.le).matrix c c = d c := by
    rw [hs.column c le_rfl, ofDiagonal_apply, if_pos rfl]
  rw [pivotColumns_eq (skipsOnlyZeros_ofDiagonal hd)]
  rcases (ofDiagonal d).reductionUpTo_succ_cases c with ⟨hc, _, hskip⟩ | ⟨hc, _, r, _, hsig⟩
  · have hsmall := hskip c hs.cursor_le
    rw [hentry] at hsmall
    exact iff_of_false hc (not_not.mpr ((hd c).resolve_right hsmall))
  · obtain rfl : r = c := hs.pivot_row hsig
    exact iff_of_true (List.mem_of_getElem? hc) (hentry ▸ ne_zero_of_significant hsig)

theorem freeSolution_ofDiagonal (hd : ∀ i, d i = 0 ∨ Significant (d i)) {j : Fin n}
    (hj : d j = 0) :
    (ofDiagonal d).rref.freeSolution (ofDiagonal d).pivotColumns j = .unit j := by
  have hfree : j ∉ (ofDiagonal d).pivotColumns :=
    mt (mem_pivotColumns_ofDiagonal hd).mp (not_not.mpr hj)
  have hzero := mulVec_eq_zero_of_mem_freeSolutions (skipsOnlyZeros_ofDiagonal hd)
    (List.mem_map_of_mem (mem_freeColumns.mpr hfree))
  ext i
  rw [Vec.unit_apply]
  by_cases hi : d i = 0
  · exact freeSolution_of_notMem (mt (mem_pivotColumns_ofDiagonal hd).mp (not_not.mpr hi))
  · have hrow := congrArg (Vec.entry · i) hzero
    simp only [ofDiagonal_mulVec_apply, Vec.replicate_apply] at hrow
    rw [(mul_eq_zero.mp hrow).resolve_left hi, if_neg]
    rintro rfl
    exact hi hj

theorem freeSolutions_ofDiagonal (hd : ∀ i, d i = 0 ∨ Significant (d i)) :
    (ofDiagonal d).freeSolutions =
      ((List.finRange n).filter fun i => decide (d i = 0)).map .unit := by
  have hfree : (ofDiagonal d).freeColumns = (List.finRange n).filter fun i => decide (d i = 0) := by
    refine List.filter_congr ?_
    intro i _
    simp [mem_pivotColumns_ofDiagonal hd]
  rw [freeSolutions, hfree]
  refine List.map_congr_left ?_
  intro j hj
  exact freeSolution_ofDiagonal hd (of_decide_eq_true (List.mem_filter.mp hj).2)

end

variable {n : Nat} {d : Vec ℝ n}

theorem eigenspace_ofDiagonal {x : ℝ} (hx : ∀ i, d i = x ∨ 1 / 10 ^ 10 < |d i - x|) :
    (ofDiagonal d).eigenspace x = ((List.finRange n).filter fun i => d i == x).map .unit := by
  have hshift (i : Fin n) : (Vec.ofFn fun k => d k - x) i = 0 ∨
      Significant ((Vec.ofFn fun k => d k - x) i) := by
    rw [Vec.entry_ofFn, sub_eq_zero, significant_iff]
    exact hx i
  rw [eigenspace_eq, shift_ofDiagonal, freeSolutions_ofDiagonal hshift]
  congr 1
  refine List.filter_congr ?_
  intro i _
  rw [Bool.eq_iff_iff, decide_eq_true_iff, beq_iff_eq, Vec.entry_ofFn, sub_eq_zero]

theorem groups_ofDiagonal (hapart : ∀ i j, d i = d j ∨ 1 / 10 ^ 10 < |d i - d j|) :
    (d.toList.eraseDups.flatMap fun x =>
      ((ofDiagonal d).eigenspace x).map (Eigenvector.mk · x)) =
      d.placesByValue.map fun i => ⟨.unit i, d i⟩ := by
  rw [Vec.placesByValue, List.map_flatMap]
  refine List.flatMap_congr ?_
  intro x hx
  obtain ⟨k, rfl⟩ := Vec.mem_toList_iff.mp (List.mem_eraseDups.mp hx)
  rw [eigenspace_ofDiagonal fun i => hapart i k, List.map_map]
  refine List.map_congr_left ?_
  intro i hi
  rw [Function.comp_apply, eq_of_beq (List.mem_filter.mp hi).2]

theorem eigenvalues_ofDiagonal (hlarge : ∀ i, 1 / 10 ^ 10 ≤ |d i|) :
    ((ofDiagonal d).eigenvalues .standard).result = .ok d := by
  have hdiagonal (i : Fin n) : (ofDiagonal d) i i = d i := by rw [ofDiagonal_apply, if_pos rfl]
  have hrun := eigenvalues_standard_of_triangular (A := ofDiagonal d) ?_ ?_
  · rwa [funext hdiagonal, Vec.ofFn_entry] at hrun
  · intro i j hij
    rw [ofDiagonal_apply, if_neg hij.ne']
  · intro i
    rw [hdiagonal]
    exact hlarge i

theorem diagonalize_ofDiagonal (hlarge : ∀ i, 1 / 10 ^ 10 ≤ |d i|)
    (hapart : ∀ i j, d i = d j ∨ 1 / 10 ^ 10 < |d i - d j|) {σ : Equiv.Perm (Fin n)}
    (hσ : List.ofFn σ = d.placesByValue) :
    (ofDiagonal d).diagonalize.result =
      .ok ⟨ofPerm σ, ofDiagonal (.ofFn fun j => d (σ j)), (ofPerm σ).transpose⟩ := by
  let columns : Vec (Eigenvector ℝ n) n := .ofFn fun j => ⟨.unit (σ j), d (σ j)⟩
  have hcolumns : d.placesByValue.map (fun i => ⟨.unit i, d i⟩) = columns.toList := by
    rw [← hσ, List.map_ofFn, Vec.toList_eq_ofFn]
    congr 1
    funext j
    rw [Function.comp_apply, Vec.entry_ofFn]
  have hp : ofCols (columns.map (·.vector)) = ofPerm σ := by
    ext i j
    simp [columns]
  have hd : columns.map (·.value) = .ofFn fun j => d (σ j) := by
    ext j
    simp [columns]
  rw [result_diagonalize_of_eigenvalues (eigenvalues_ofDiagonal hlarge), groups_ofDiagonal hapart,
    hcolumns, diagonalizeWith_toList, hp, hd, inverse_ofPerm]
  rfl

theorem ofDiagonal_mul_ofPerm (d : Vec ℝ n) (σ : Equiv.Perm (Fin n)) :
    (ofDiagonal d).mul (ofPerm σ) = (ofPerm σ).mul (ofDiagonal (.ofFn fun j => d (σ j))) := by
  ext i j
  rw [ofDiagonal_mul_apply, mul_ofDiagonal_apply, ofPerm_apply, Vec.entry_ofFn]
  split_ifs with h
  · rw [h, mul_one, one_mul]
  · rw [mul_zero, zero_mul]

end Mat

namespace DenseMatrix

theorem ofDiagonal_toArray {α : Type} [Zero α] [One α] {n : Nat} (hn : 0 < n) (d : Vec α n) :
    ofDiagonal d.toArray = .ok ⟨n, n, hn, hn, .ofDiagonal d⟩ := by
  obtain ⟨⟨a, rfl⟩⟩ := d
  rw [ofDiagonal]
  exact dif_pos hn

/-- A diagonal matrix whose values are not too small, and equal or clearly apart, is diagonalized by
the permutation that brings equal values together: the columns of `P` are the unit vectors at the
places of the values, the diagonal of `D` holds the values in this order, the inverse is the
transpose, and the product gives the matrix back. -/
theorem diagonalize_by_permutation {n : Nat} (hn : 0 < n) (d : Vec ℝ n)
    (hlarge : ∀ i, 1 / 10 ^ 10 ≤ |d i|)
    (hapart : ∀ i j, d i = d j ∨ 1 / 10 ^ 10 < |d i - d j|) :
    let A : DenseMatrix ℝ := ⟨n, n, hn, hn, .ofDiagonal d⟩
    ofDiagonal d.toArray = .ok A ∧
    ∃ (f : Diagonalization ℝ n) (σ : Equiv.Perm (Fin n)), A.diagonalize.result = .ok f ∧
      List.ofFn σ = d.placesByValue ∧ f.p = .ofPerm σ ∧
      f.d = .ofDiagonal (.ofFn fun j => d (σ j)) ∧ f.pInv = f.p.transpose ∧
      f.product = .ofDiagonal d := by
  intro A
  obtain ⟨σ, hσ⟩ := d.exists_perm_placesByValue
  have hA : A.toSquare = .ok (.ofDiagonal d) := toSquare_mk hn hn _
  have hf : A.diagonalize.result = _ :=
    (result_diagonalize_of_toSquare hA).trans (Mat.diagonalize_ofDiagonal hlarge hapart hσ)
  exact ⟨ofDiagonal_toArray hn d, _, σ, hf, hσ, rfl, rfl, rfl,
    Mat.product_of_mul_eq (Mat.ofDiagonal_mul_ofPerm d σ) (Mat.ofPerm_mul_transpose σ)⟩

/-- Equal values with another one between them. -/
noncomputable def alternating : Vec ℝ 3 := .ofFn ![-1, 1, -1]

theorem diagonalize_alternating :
    let A : DenseMatrix ℝ := ⟨3, 3, Nat.succ_pos 2, Nat.succ_pos 2, .ofDiagonal alternating⟩
    (∀ i, 1 / 10 ^ 10 ≤ |alternating i|) ∧
    (∀ i j, alternating i = alternating j ∨ 1 / 10 ^ 10 < |alternating i - alternating j|) ∧
    ∃ f, A.diagonalize.result = .ok f ∧ f.p = .ofFn ![![1, 0, 0], ![0, 0, 1], ![0, 1, 0]] ∧
      f.d = .ofDiagonal (.ofFn ![-1, -1, 1]) ∧ f.product = .ofDiagonal alternating := by
  intro A
  have hlarge (i : Fin 3) : 1 / 10 ^ 10 ≤ |alternating i| := by
    fin_cases i <;> norm_num [alternating]
  have hapart (i j : Fin 3) :
      alternating i = alternating j ∨ 1 / 10 ^ 10 < |alternating i - alternating j| := by
    fin_cases i <;> fin_cases j <;> norm_num [alternating]
  have hplaces : alternating.placesByValue = [0, 2, 1] := by
    have hlist : alternating.toList = [-1, 1, -1] := by
      rw [Vec.toList_eq_ofFn]
      simp [alternating]
    have hvalues : ([-1, 1, -1] : List ℝ).eraseDups = [-1, 1] := by
      norm_num [List.eraseDups_cons]
    have hentries : alternating 0 = -1 ∧ alternating 1 = 1 ∧ alternating 2 = -1 := by
      simp [alternating]
    rw [Vec.placesByValue, hlist, hvalues]
    norm_num [List.finRange_succ, List.filter_cons, hentries]
  obtain ⟨_, f, σ, hf, hσ, hp, hd, _, hproduct⟩ :=
    diagonalize_by_permutation (Nat.succ_pos 2) alternating hlarge hapart
  have hperm : σ 0 = 0 ∧ σ 1 = 2 ∧ σ 2 = 1 := by
    rw [hplaces] at hσ
    simpa [List.ofFn_succ] using hσ
  refine ⟨hlarge, hapart, f, hf, ?_, ?_, hproduct⟩
  · rw [hp]
    ext i j
    fin_cases i <;> fin_cases j <;> simp [hperm]
  · rw [hd]
    congr 1
    ext j
    fin_cases j <;> simp [hperm, alternating]

end DenseMatrix

end DenseLinear
