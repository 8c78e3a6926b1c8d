import DenseLinear.Proofs.Diagonalization
import DenseLinear.Proofs.Storage.Elimination
import DenseLinear.Proofs.Storage.Orthogonal
import DenseLinear.Proofs.Storage.Sizes
import DenseLinear.Storage.Spectrum

/-!
# The spectrum in storage

Each step of the iteration leaves the storage of the next matrix, and a run from there takes the
steps that are left. What is collected for a diagonalization are the same vectors in the same order.
-/

namespace DenseLinear

variable {α : Type} [RootScalar α] {n : Nat}

def Eigenpair.arrays (pair : Eigenpair α n) : α × List (Array α) :=
  (pair.value, pair.basis.map Vec.toArray)

/-- Eigenvectors as they are stored, apart from their values. -/
def eigenvectorArrays (found : List (Eigenvector α n)) : List (Array α) × List α :=
  (found.map (·.vector.toArray), found.map (·.value))

theorem foldl_collectStep (pairs : List (Eigenpair α n)) :
    (pairs.map Eigenpair.arrays).foldl Stored.collectStep ([], []) =
      eigenvectorArrays (collect pairs) := by
  induction pairs using List.reverseRecOn with
  | nil => rfl
  | append_singleton pairs pair ih =>
    have hseen : (eigenvectorArrays (collect pairs)).2.any (· == pair.value) =
        (collect pairs).any (·.value == pair.value) := List.any_map
    rw [List.map_append, List.foldl_append, ih, collect_concat, List.map_singleton,
      List.foldl_cons, List.foldl_nil, Stored.collectStep, Eigenpair.arrays, hseen]
    split_ifs
    · rfl
    · simp [eigenvectorArrays]

namespace Mat

theorem all_zip_toArray (tolerance : α) (x y : Vec α n) :
    (x.toArray.zip y.toArray).all (fun p => decide (Scalar.abs (p.1 - p.2) < tolerance)) = true ↔
      ∀ i, Scalar.abs (x i - y i) < tolerance := by
  rw [Array.all_eq_true]
  constructor
  · intro h i
    have hi := h i (by simp)
    rw [Array.getElem_zip, Vec.getElem_toArray, Vec.getElem_toArray] at hi
    exact of_decide_eq_true hi
  · intro h i hi
    have hin : i < n := by simpa using hi
    rw [Array.getElem_zip, Vec.getElem_toArray _ ⟨i, hin⟩, Vec.getElem_toArray _ ⟨i, hin⟩]
    exact decide_eq_true (h ⟨i, hin⟩)

section

variable [SizeArithmetic] (hn : 0 < n) (h : Fits n n)
include hn h

theorem iterationStep_stored (tolerance : α) (A : Mat α n n) :
    Stored.iterationStep tolerance A.stored =
      A.swapFactors.mapError (fun i : Fin n => .stop (.refused (.rankDeficient i))) >>= fun B =>
        if DiagonalSettled tolerance A B then .error (.answer (Vec.ofFn fun i => B i i).toArray)
        else .ok B.stored := by
  rw [Stored.iterationStep, qr_stored hn hn h h, swapFactors]
  cases A.qr with
  | error i => rfl
  | ok f =>
    simp only [Except.map, Except.mapError, Checked.lift_exit_ok, Checked.ok_bind,
      mul_stored hn hn h, diagonal_stored_square, all_zip_toArray, Vec.entry_ofFn]
    rfl

theorem iterate_stored (tolerance : α) (budget done : Nat) (A : Mat α n n) :
    Exit.close Stored.diagonal
      (forRange 0 budget (fun _ => Stored.iterationStep tolerance) A.stored) =
      ((A.iterateFactors tolerance budget done).map fun o =>
        (Vec.ofFn fun i => o.last i i).toArray).mapError fun i : Fin n =>
          .refused (.rankDeficient i) := by
  induction budget generalizing done A with
  | zero =>
    rw [forRange_of_le le_rfl, Exit.close, diagonal_stored_square]
    rfl
  | succ budget ih =>
    rw [forRange_const_succ, iterationStep_stored hn h, iterateFactors]
    cases A.swapFactors with
    | error i => rfl
    | ok B =>
      simp only [Except.mapError, Checked.ok_bind]
      split_ifs
      · rfl
      · exact ih (done + 1) B

theorem eigenvalues_stored (A : Mat α n n) (options : IterationOptions α) :
    A.stored.eigenvalues options =
      liftM ((A.eigenvalues options).result.map Vec.toArray) := by
  rw [Stored.eigenvalues, side_stored, Checked.ok_bind, iterate_stored hn h options.tolerance _ 0,
    eigenvalues]
  cases A.iterateFactors options.tolerance options.maxSteps 0 <;> rfl

end

theorem shift_stored (A : Mat α n n) (value : α) :
    A.stored.shift n value = .ok (A.shift value).stored := by
  apply forRange_all_rows
  intro i
  rw [entry_stored, Checked.ok_bind, setEntry_stored, setEntry_blendRows]
  · rw [shift_apply, if_pos rfl, blend_of_le le_rfl]
  · intro j hj
    rw [shift_apply, if_neg hj.symm]

theorem foldlM_keepLong (hn : 0 < n) (l : List (Vec α n)) (found : List (Array α)) :
    (l.map Vec.toArray).foldlM Stored.keepLong found =
      .ok (found ++ (l.filter fun v => decide (Scalar.eps < v.norm)).map Vec.toArray) := by
  induction l generalizing found with
  | nil =>
    rw [List.filter_nil, List.map_nil, List.append_nil]
    rfl
  | cons v l ih =>
    rw [List.map_cons, List.foldlM_cons, Stored.keepLong, DenseVector.norm_toArray hn,
      Checked.lift_error_ok, Checked.ok_bind]
    by_cases hv : Scalar.eps < v.norm
    · rw [if_pos hv, Checked.pure_eq_ok, Checked.ok_bind, ih]
      simp [hv]
    · rw [if_neg hv, Checked.pure_eq_ok, Checked.ok_bind, ih]
      simp [hv]

theorem eigenvector_stored (hn : 0 < n) (A : Mat α n n) (value : α) :
    A.stored.eigenvector value = .ok ((A.eigenspace value).map Vec.toArray) := by
  rw [Stored.eigenvector, side_stored, Checked.ok_bind, shift_stored, Checked.ok_bind,
    nullSpace_stored hn hn, Checked.ok_bind, foldlM_keepLong hn, List.nil_append, eigenspace]

theorem eigenpairs_stored [SizeArithmetic] (hn : 0 < n) (h : Fits n n) (A : Mat α n n) :
    A.stored.eigenpairs = liftM (A.eigenpairs.result.map (List.map Eigenpair.arrays)) := by
  rw [Stored.eigenpairs, side_stored, Checked.ok_bind, eigenvalues_stored hn h,
    result_eigenpairs]
  cases (A.eigenvalues .standard).result with
  | error e => rfl
  | ok values =>
    have hpairs : values.toArray.toList.mapM (fun value => do
        return (value, ← A.stored.eigenvector value)) =
        (.ok (values.toArray.toList.map fun value =>
          (value, (A.eigenspace value).map Vec.toArray)) : Checked _) := by
      apply mapM_eq_ok
      intro value _
      rw [eigenvector_stored hn]
      rfl
    simp only [Except.map, Checked.lift_error_ok, Checked.ok_bind, hpairs, pairsAt, List.map_map]
    rfl

omit [RootScalar α] in
theorem eigenvectorArrays_toArray {found : List (Eigenvector α n)} (h : found.length = n) :
    (eigenvectorArrays found).1.toArray = (Array.ofFn fun j =>
      ((ofCols ((Vec.ofArray found.toArray h).map (·.vector))).col j).toArray) ∧
    (eigenvectorArrays found).2.toArray = ((Vec.ofArray found.toArray h).map (·.value)).toArray := by
  constructor
  · apply Array.ext
    · simp [eigenvectorArrays, h]
    · intro j hj hj'
      have hjn : j < n := by simpa using hj'
      rw [Array.getElem_ofFn]
      have hcol : (ofCols ((Vec.ofArray found.toArray h).map (·.vector))).col ⟨j, hjn⟩ =
          ((Vec.ofArray found.toArray h) ⟨j, hjn⟩).vector := by
        ext i
        rw [col_apply, ofCols_apply, Vec.map_apply]
      rw [hcol]
      simp [eigenvectorArrays]
      rfl
  · rw [← Vec.map_toArray]
    exact (List.map_toArray).symm

section

variable [SizeArithmetic] (hn : 0 < n) (h : Fits n n)
include hn h

/-- Up to the inverse of the eigenvectors, for which there may be no room. -/
theorem diagonalize_stored_eq (A : Mat α n n) :
    A.stored.diagonalize = (liftM (A.eigenvalues .standard).result : Checked (Vec α n)) >>=
      fun values =>
        let found := collect (A.pairsAt values.toList)
        if hlength : found.length = n then do
          let columns : Vec (Eigenvector α n) n := .ofArray found.toArray hlength
          let p := ofCols (columns.map (·.vector))
          return (p.stored, (ofDiagonal (columns.map (·.value))).stored, ← p.stored.inverse)
        else .error (.refused (.notDiagonalizable found.length n)) := by
  rw [Stored.diagonalize, side_stored, Checked.ok_bind, eigenpairs_stored hn h, result_eigenpairs]
  cases (A.eigenvalues .standard).result with
  | error e => rfl
  | ok values =>
    simp only [Except.map, Checked.lift_error_ok, Checked.ok_bind, foldl_collectStep]
    generalize collect (A.pairsAt values.toList) = found
    have hlength : (eigenvectorArrays found).1.length = found.length := List.length_map _
    rw [hlength]
    split_ifs with hn'
    · obtain ⟨hvectors, hvalues⟩ := eigenvectorArrays_toArray hn'
      rw [hvectors, hvalues, ofColumns_stored hn hn h, Checked.ok_bind, ofDiagonal_stored hn h,
        Checked.ok_bind]
    · rfl

omit h in
theorem diagonalize_stored (h : Fits n (2 * n)) (A : Mat α n n) :
    A.stored.diagonalize =
      liftM (A.diagonalize.result.map fun f => (f.p.stored, f.d.stored, f.pInv.stored)) := by
  rw [diagonalize_stored_eq hn h.of_half, result_diagonalize]
  cases (A.eigenvalues .standard).result with
  | error e => rfl
  | ok values =>
    simp only [Checked.lift_error_ok, Checked.ok_bind, Except.bind, diagonalizeWith]
    generalize collect (A.pairsAt values.toList) = found
    split_ifs with hlength
    · rw [inverse_stored hn h]
      cases (ofCols ((Vec.ofArray found.toArray hlength).map (·.vector))).inverse <;> rfl
    · rfl

theorem diagonalize_lacksRoom (hnot : ¬Fits n (2 * n)) (A : Mat α n n) :
    (∃ e, A.diagonalize.result = .error e ∧ A.stored.diagonalize = .error (.refused e)) ∨
      LacksRoom A.stored.diagonalize := by
  rw [diagonalize_stored_eq hn h, result_diagonalize]
  cases (A.eigenvalues .standard).result with
  | error e => exact .inl ⟨e, rfl, rfl⟩
  | ok values =>
    simp only [Checked.lift_error_ok, Checked.ok_bind, Except.bind, diagonalizeWith]
    split_ifs with hlength
    · exact .inr ((inverse_lacksRoom hn h hnot _).bind _)
    · exact .inl ⟨_, rfl, rfl⟩

theorem product_stored (f : Diagonalization α n) :
    Stored.product f.p.stored f.d.stored f.pInv.stored = .ok f.product.stored := by
  rw [Stored.product, mul_stored hn hn h, Checked.ok_bind, mul_stored hn hn h]
  rfl

end

end Mat

end DenseLinear
