import DenseLinear.Proofs.Triangular

/-!
# Forward and back substitution

Both substitutions set the entries of a vector one by one, each from entries set before, from the
first down or from the last up. They end with the one vector that satisfies all the equations that
the entries were computed by. For a triangular matrix these are the rows of the system.
-/

namespace DenseLinear

section

variable {α : Type} {n : Nat} {order : Fin n → Fin n} {value : Fin n → Vec α n → α}

/-- The entry that is set as the `k`-th in `order` depends on those set before it alone. -/
def ReadsBefore (order : Fin n → Fin n) (value : Fin n → Vec α n → α) : Prop :=
  ∀ k v w, (∀ j < k, v (order j) = w (order j)) → value (order k) v = value (order k) w

theorem ReadsBefore.afterSteps_set (hvalue : ReadsBefore order value)
    (horder : Function.Injective order) (start : Vec α n) (k : Nat) (h : k ≤ n) :
    let v := afterSteps (fun k v => v.set (order k) (value (order k) v)) start k h
    ∀ j : Fin n, j.val < k → v (order j) = value (order j) v := by
  refine afterSteps_induction
    (fun k (v : Vec α n) => ∀ j : Fin n, j.val < k → v (order j) = value (order j) v) ?_ ?_ k h
  · intro j hj
    exact absurd hj (Nat.not_lt_zero _)
  · intro k v hv j hj
    have hkeep (l : Fin n) (hl : l < k) :
        v (order l) = (v.set (order k) (value (order k) v)) (order l) := by
      rw [Vec.set_apply, if_neg (horder.ne hl.ne)]
    rcases lt_or_eq_of_lt_succ hj with hlt | rfl
    · rw [← hkeep j hlt, hv j hlt]
      exact hvalue j _ _ fun l hl => hkeep l (hl.trans hlt)
    · rw [Vec.set_apply, if_pos rfl]
      exact hvalue j _ _ hkeep

theorem ReadsBefore.unique (hvalue : ReadsBefore order value)
    (horder : Function.Surjective order) {v w : Vec α n} (hv : ∀ i, v i = value i v)
    (hw : ∀ i, w i = value i w) : v = w := by
  have hall (j : Fin n) : v (order j) = w (order j) := by
    induction j using WellFoundedLT.induction with
    | ind j ih => rw [hv, hw, hvalue j v w ih]
  ext i
  obtain ⟨j, rfl⟩ := horder i
  exact hall j

theorem ReadsBefore.afterSteps_set_eq_iff (hvalue : ReadsBefore order value)
    (horder : Function.Bijective order) (start w : Vec α n) :
    afterSteps (fun k v => v.set (order k) (value (order k) v)) start n le_rfl = w ↔
      ∀ i, w i = value i w := by
  have hv := hvalue.afterSteps_set horder.injective start n le_rfl
  constructor
  · rintro rfl i
    obtain ⟨j, rfl⟩ := horder.surjective i
    exact hv j j.isLt
  · intro hw
    refine hvalue.unique horder.surjective ?_ hw
    intro i
    obtain ⟨j, rfl⟩ := horder.surjective i
    exact hv j j.isLt

end

namespace LU

section

variable {α : Type} [Scalar α] {n : Nat}

def forwardEntry (f : LU α n) (b : Vec α n) (i : Fin n) (y : Vec α n) : α :=
  b i - if i.val = 0 then 0 else sumBefore i fun k => f.lower i k * y k

def backwardEntry (f : LU α n) (y : Vec α n) (i : Fin n) (x : Vec α n) : α :=
  (y i - if i.val + 1 = n then 0 else sumAfter i fun k => f.upper i k * x k) / f.upper i i

theorem forwardEntry_readsBefore (f : LU α n) (b : Vec α n) :
    ReadsBefore id (f.forwardEntry b) := by
  intro i v w h
  have hsum : sumBefore i (fun k => f.lower i k * v k) = sumBefore i fun k => f.lower i k * w k :=
    sumBefore_congr fun k hk => congrArg (f.lower i k * ·) (h k hk)
  simp only [id, forwardEntry, hsum]

theorem backwardEntry_readsBefore (f : LU α n) (y : Vec α n) :
    ReadsBefore Fin.rev (f.backwardEntry y) := by
  intro i v w h
  have hsum : sumAfter i.rev (fun k => f.upper i.rev k * v k) =
      sumAfter i.rev fun k => f.upper i.rev k * w k := by
    apply sumAfter_congr
    intro k hk
    have hvw := h k.rev (Fin.rev_lt_iff.mpr hk)
    rw [Fin.rev_rev] at hvw
    rw [hvw]
  simp only [backwardEntry, hsum]

theorem forward_eq_iff_entries (f : LU α n) (b y : Vec α n) :
    f.forward b = y ↔ ∀ i, y i = f.forwardEntry b i y :=
  (f.forwardEntry_readsBefore b).afterSteps_set_eq_iff Function.bijective_id _ y

theorem backward_eq_iff_entries (f : LU α n) (y x : Vec α n) :
    f.backward y = x ↔ ∀ i, x i = f.backwardEntry y i x :=
  (f.backwardEntry_readsBefore y).afterSteps_set_eq_iff Fin.rev_bijective _ x

end

variable {K : Type} [Field K] [LinearOrder K] {n : Nat} {A : Mat K n n} {f : LU K n}

/-- At the first row there is nothing to sum, so the case apart makes no difference. -/
theorem known_before (i : Fin n) (t : Fin n → K) :
    (if i.val = 0 then 0 else sumBefore i t) = sumBefore i t := by
  split_ifs with hi
  · exact (sumBefore_eq_zero fun k hk => absurd hk (by omega)).symm
  · rfl

theorem known_after (i : Fin n) (t : Fin n → K) :
    (if i.val + 1 = n then 0 else sumAfter i t) = sumAfter i t := by
  split_ifs with hi
  · exact (sumAfter_eq_zero fun k hk => absurd hk (by omega)).symm
  · rfl

theorem ShapeUpTo.forward_eq_iff (hf : f.ShapeUpTo n) (b y : Vec K n) :
    f.forward b = y ↔ f.lower.mulVec y = b := by
  have hrow (i : Fin n) :
      (f.lower.mulVec y) i = sumBefore i (fun k => f.lower i k * y k) + y i := by
    have hafter : sumAfter i (fun k => f.lower i k * y k) = 0 :=
      sumAfter_eq_zero fun k hk => by rw [hf.above i k hk, zero_mul]
    rw [Mat.mulVec_entry, sum_eq_before_add_after i, hafter, hf.diagonal i i.isLt, one_mul, add_zero]
  rw [forward_eq_iff_entries, Vec.ext_iff]
  apply forall_congr'
  intro i
  rw [hrow, forwardEntry, known_before, eq_sub_iff_add_eq']

variable [IsStrictOrderedRing K]

theorem ShapeUpTo.backward_eq_iff (hf : f.ShapeUpTo n) (y x : Vec K n) :
    f.backward y = x ↔ f.upper.mulVec x = y := by
  have hrow (i : Fin n) :
      (f.upper.mulVec x) i = f.upper i i * x i + sumAfter i fun k => f.upper i k * x k := by
    have hbefore : sumBefore i (fun k => f.upper i k * x k) = 0 :=
      sumBefore_eq_zero fun k hk => by rw [hf.below i k hk, zero_mul]
    rw [Mat.mulVec_entry, sum_eq_before_add_after i, hbefore, zero_add]
  rw [backward_eq_iff_entries, Vec.ext_iff]
  apply forall_congr'
  intro i
  have hpivot : f.upper i i ≠ 0 := ne_zero_of_not_negligible (hf.pivot i i.isLt)
  rw [hrow, backwardEntry, known_after, eq_div_iff hpivot, mul_comm, eq_sub_iff_add_eq]

/-- Substitution solves the system, and there is no other solution. -/
theorem FactorsUpTo.solve_eq_iff (hf : f.FactorsUpTo A n) (b x : Vec K n) :
    f.solve b = x ↔ A.mulVec x = b := by
  rw [solve, hf.backward_eq_iff, eq_comm, hf.forward_eq_iff, ← Mat.mul_mulVec, hf.mul_eq]

end LU

end DenseLinear
