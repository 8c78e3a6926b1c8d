import DenseLinear.Dense.Solve
import DenseLinear.Proofs.Storage.Build
import DenseLinear.Storage.Triangular

/-!
# Triangular factors in storage

While a row of the upper factor or a column of the lower one is being filled, each sum reads only
what was filled before: the rows of the one and the columns of the other before the step.
-/

namespace DenseLinear

variable {α : Type} [Scalar α]

namespace Mat

variable {n : Nat}

theorem partialProduct_stored (L U : Mat α n n) (i r c : Fin n) :
    Stored.partialProduct L.stored U.stored i r c = .ok (sumBefore i fun k => L r k * U k c) := by
  refine forRange_eq_foldl id (fun s k => s + L r (before i k) * U (before i k) c) ?_ (-0)
  intro k s
  have hL : L.stored.entry r k = .ok (L r (before i k)) := L.entry_stored r (before i k)
  have hU : U.stored.entry k c = .ok (U (before i k) c) := U.entry_stored (before i k) c
  rw [hL, Checked.ok_bind, hU]
  rfl

theorem fillUpper_stored (A : Mat α n n) (f : LU α n) (i : Fin n) :
    Stored.fillUpper A.stored f.lower.stored f.upper.stored n i =
      .ok (f.upper.setRow i fun c =>
        if i ≤ c then f.remainder A i i c else f.upper i c).stored := by
  apply forRange_columns i.isLt.le le_rfl
  · intro r j hj
    have hlt : ¬i ≤ j := by
      rw [Fin.le_def]
      omega
    rw [setRow_apply, if_neg hlt]
    split_ifs with hr
    · rw [hr]
    · rfl
  · intro j hij _
    have hle : i ≤ j := hij
    rw [partialProduct_stored, Checked.ok_bind, entry_stored, Checked.ok_bind, setEntry_stored,
      setEntry_blendColumns]
    · rw [setRow_apply, if_pos rfl, if_pos hle, LU.remainder]
      congr 1
      apply sumBefore_congr
      intro k hk
      rw [blend_eq]
      rw [setRow_apply, if_neg hk.ne]
    · intro r hr
      rw [setRow_apply, if_neg hr]

theorem fillLower_stored (A : Mat α n n) (f : LU α n) (i : Fin n) (row : Fin n → α) (pivot : α) :
    Stored.fillLower A.stored (f.lower.setEntry i i 1).stored (f.upper.setRow i row).stored n i
        pivot =
      .ok (f.lower.setCol i fun r =>
        if r = i then 1 else if i < r then f.remainder A i r i / pivot else f.lower r i).stored := by
  apply forRange_rows i.isLt le_rfl
  · intro r j hr
    have hle : ¬i < r := by
      rw [Fin.lt_def]
      omega
    rw [setEntry_apply, setCol_apply, if_neg hle]
    by_cases hj : j = i
    · by_cases hri : r = i
      · rw [if_pos ⟨hri, hj⟩, if_pos hj, if_pos hri]
      · rw [if_neg fun h => hri h.1, if_pos hj, if_neg hri, hj]
    · rw [if_neg fun h => hj h.2, if_neg hj]
  · intro r hir _
    have hlt : i < r := hir
    rw [partialProduct_stored, Checked.ok_bind, entry_stored, Checked.ok_bind, setEntry_stored,
      setEntry_blendRows]
    · rw [setCol_apply, if_pos rfl, if_neg hlt.ne', if_pos hlt, LU.remainder]
      congr 2
      apply sumBefore_congr
      intro k hk
      rw [blend_of_le le_rfl, setEntry_apply, if_neg fun h => hk.ne h.2,
        setRow_apply, if_neg hk.ne]
    · intro c hc
      rw [setCol_apply, if_neg hc, setEntry_apply, if_neg fun h => hc h.2]

theorem luStep_stored (A : Mat α n n) (i : Fin n) (f : LU α n) :
    Stored.luStep A.stored n i (f.lower.stored, f.upper.stored) =
      ((LU.step A i f).map fun g => (g.lower.stored, g.upper.stored)).mapError
        fun i : Fin n => .refused (.zeroPivot i) := by
  rw [Stored.luStep, fillUpper_stored, Checked.ok_bind, entry_stored, Checked.ok_bind,
    setRow_apply, if_pos rfl, if_pos le_rfl, LU.step]
  split_ifs with hn
  · rfl
  · rw [setEntry_stored, Checked.ok_bind, fillLower_stored]
    rfl

theorem lu_stored [SizeArithmetic] (hn : 0 < n) (h : Fits n n) (A : Mat α n n) :
    A.stored.lu = (A.lu.map fun f => (f.lower.stored, f.upper.stored)).mapError
      fun i : Fin n => .refused (.zeroPivot i) := by
  rw [Stored.lu, side_stored, Checked.ok_bind, zeros_stored hn hn h, Checked.ok_bind,
    Checked.ok_bind]
  exact forRange_eq_tryAfterSteps (⟨.zero n n, .zero n n⟩ : LU α n)
    (fun _ f => (f.lower.stored, f.upper.stored)) (fun i : Fin n => Stop.refused (.zeroPivot i))
    (fun i f _ => luStep_stored A i f) n le_rfl

theorem knownBefore_stored (L : Mat α n n) (y : Vec α n) (i : Fin n) :
    L.stored.knownBefore y.toArray i =
      .ok (if i.val = 0 then 0 else sumBefore i fun k => L i k * y k) := by
  rw [Stored.knownBefore]
  split_ifs with hi
  · rfl
  · rw [row_stored, Checked.ok_bind, dotBetween, Vec.slice_before, Checked.ok_bind,
      Vec.slice_before, Checked.ok_bind, DenseVector.dot_toArray (Nat.pos_of_ne_zero hi),
      Checked.lift_error_ok, Vec.dot, sumBefore]
    simp only [Vec.entry_ofFn, row_apply]

theorem knownAfter_stored (U : Mat α n n) (x : Vec α n) (i : Fin n) :
    U.stored.knownAfter x.toArray n i =
      .ok (if i.val + 1 = n then 0 else sumAfter i fun k => U i k * x k) := by
  rw [Stored.knownAfter]
  split_ifs with hi
  · rfl
  · have hlt : 0 < n - (i + 1) := by omega
    rw [row_stored, Checked.ok_bind, dotBetween, Vec.slice_after, Checked.ok_bind,
      Vec.slice_after, Checked.ok_bind, DenseVector.dot_toArray hlt, Checked.lift_error_ok,
      Vec.dot, sumAfter]
    simp only [Vec.entry_ofFn, row_apply]

theorem solveFactored_stored (hn : 0 < n) (f : LU α n) (b : Vec α n) :
    f.lower.stored.solveFactored f.upper.stored b.toArray = .ok (f.solve b).toArray := by
  have hforward : forRange 0 n (fun i y => do
      let known ← f.lower.stored.knownBefore y i
      store y i ((← fetch b.toArray i) - known)) (Vec.replicate n 0).toArray =
      .ok (f.forward b).toArray := by
    apply forRange_eq_afterSteps Vec.toArray
    intro i y
    rw [knownBefore_stored, Checked.ok_bind, Vec.fetch_toArray, Checked.ok_bind,
      Vec.store_toArray]
    rfl
  have hbackward : forRange 0 n (fun k x => do
      let i := n - (k + 1)
      let known ← f.upper.stored.knownAfter x n i
      store x i (((← fetch (f.forward b).toArray i) - known) / (← f.upper.stored.entry i i)))
      (Vec.replicate n 0).toArray = .ok (f.backward (f.forward b)).toArray := by
    apply forRange_eq_afterSteps Vec.toArray
    intro k x
    have hi : n - (k.val + 1) = k.rev := (Fin.val_rev k).symm
    simp only [hi]
    rw [knownAfter_stored, Checked.ok_bind, Vec.fetch_toArray, Checked.ok_bind, entry_stored,
      Checked.ok_bind, Vec.store_toArray]
    rfl
  rw [Stored.solveFactored, DenseVector.check_toArray hn, Checked.lift_error_ok, Checked.ok_bind,
    if_pos (height_stored _).symm, height_stored, ← Vec.toArray_replicate, hforward,
    Checked.ok_bind, hbackward]
  rfl

end Mat

end DenseLinear
