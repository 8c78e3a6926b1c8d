import DenseLinear.Dense.Solve
import DenseLinear.Proofs.Storage.Reduction
import DenseLinear.Storage.Elimination

/-!
# Elimination in storage

A step of the determinant leaves the storage of the matrix that the step leads to. A step of the
inverse does so for the two matrices side by side: an operation on a row of twice the length is one
on each of its halves.
-/

namespace DenseLinear

variable {α : Type} [Scalar α]

namespace Mat

variable {m n : Nat}

theorem largestRow_stored (A : Mat α m n) (start : Fin m) (c : Fin n) :
    A.stored.largestRow start c = .ok (A.largestRow start c).val := by
  rw [Stored.largestRow, height_stored, forRange_eq_zero, largestRow,
    ← Fin.foldl_eq_foldl_finRange]
  apply forRange_eq_foldl Fin.val
  intro r best
  rw [entry_stored, entry_stored]
  by_cases hr : start < r
  · have hle : start.val + 1 ≤ r := hr
    simp only [hle, hr, true_and, if_true, Checked.ok_bind, Checked.pure_eq_ok, apply_ite Fin.val]
  · have hle : ¬start.val + 1 ≤ r := hr
    simp only [hle, hr, false_and, if_false]

theorem exchange_stored (s : Elimination α n) (i r : Fin n) :
    Stored.exchange (s.matrix.stored, s.det) i r =
      .ok ((s.exchange i r).matrix.stored, (s.exchange i r).det) := by
  rw [Stored.exchange, Elimination.exchange]
  by_cases h : r = i
  · rw [if_pos h, if_pos (congrArg Fin.val h)]
  · rw [if_neg h, if_neg (Fin.val_ne_of_ne h), swapRows_stored]
    rfl

theorem clearBelow_stored (A : Mat α n n) (i : Fin n) (pivot : α) :
    A.stored.clearBelow i pivot =
      .ok (A.eliminate i (i < ·) fun r => A r i / pivot).stored := by
  apply forRange_eliminate (lt_irrefl i) _ i.isLt
  · intro r hr
    exact not_lt.mpr (Nat.lt_succ_iff.mp hr)
  · intro r N hr hN
    have hlt : i < r := hr
    rw [entry_stored, Checked.ok_bind, hN, if_pos hlt]

theorem eliminationStep_stored (i : Fin n) (s : Elimination α n) :
    Stored.eliminationStep i (s.matrix.stored, s.det) =
      ((eliminationStep i s).map fun t => (t.matrix.stored, t.det)).mapError
        fun _ => .answer 0 := by
  rw [Stored.eliminationStep, largestRow_stored, Checked.lift_exit_ok, Checked.ok_bind,
    exchange_stored, Checked.lift_exit_ok, Checked.ok_bind, entry_stored, Checked.lift_exit_ok,
    Checked.ok_bind, eliminationStep]
  split_ifs with hn
  · rfl
  · rw [clearBelow_stored]
    rfl

theorem det_stored (A : Mat α n n) : A.stored.det = .ok A.det := by
  have hrun := forRange_eq_tryAfterSteps (⟨A, 1⟩ : Elimination α n)
    (fun _ s => (s.matrix.stored, s.det)) (fun _ => Exit.answer 0)
    (fun i s _ => eliminationStep_stored i s) n le_rfl
  rw [Stored.det, side_stored, Checked.ok_bind, hrun, det, elimination, eliminationUpTo]
  cases tryAfterSteps eliminationStep (⟨A, 1⟩ : Elimination α n) n le_rfl <;> rfl

end Mat

namespace Augmented

variable {n : Nat}

/-- The two sides beside each other, as the columns before `n` and those from `n` on. -/
def joined (s : Augmented α n) : Mat α n (2 * n) :=
  .ofFn fun i j => if h : j.val < n then s.left i ⟨j, h⟩ else s.right i ⟨j - n, by omega⟩

def leftColumn (j : Fin n) : Fin (2 * n) := ⟨j, by omega⟩

def rightColumn (j : Fin n) : Fin (2 * n) := ⟨n + j, by omega⟩

omit [Scalar α]

theorem joined_left (s : Augmented α n) (i j : Fin n) : s.joined i (leftColumn j) = s.left i j := by
  rw [joined, Mat.entry_ofFn]
  exact dif_pos j.isLt

theorem joined_right (s : Augmented α n) (i j : Fin n) :
    s.joined i (rightColumn j) = s.right i j := by
  have h : ¬(rightColumn j).val < n := by simp [rightColumn]
  rw [joined, Mat.entry_ofFn, dif_neg h]
  congr 1
  exact Fin.ext (Nat.add_sub_cancel_left _ _)

/-- A matrix of twice the width is known by its halves. -/
theorem eq_joined {s : Augmented α n} {M : Mat α n (2 * n)}
    (hl : ∀ i j, M i (leftColumn j) = s.left i j) (hr : ∀ i j, M i (rightColumn j) = s.right i j) :
    M = s.joined := by
  ext i j
  by_cases h : j.val < n
  · have hj : j = leftColumn ⟨j, h⟩ := rfl
    rw [hj, hl, joined_left]
  · have hj : j = rightColumn ⟨j - n, by omega⟩ := Fin.ext (by simp [rightColumn]; omega)
    rw [hj, hr, joined_right]

end Augmented

namespace Mat

variable {n : Nat}

/-- With the product of the sides of the widened matrix, their own double is a size too. -/
theorem times_two_of_fits [SizeArithmetic] (hn : 0 < n) (h : Fits n (2 * n)) :
    times 2 n = .ok (2 * n) :=
  times_of_fits (h.of_le (Nat.le_mul_of_pos_left _ hn))

theorem augment_stored [SizeArithmetic] (hn : 0 < n) (h : Fits n (2 * n)) (A : Mat α n n) :
    A.stored.augment n = .ok (Augmented.mk A (identity n)).joined.stored := by
  rw [Stored.augment, times_two_of_fits hn h, Checked.ok_bind, zeros_stored hn (by omega) h,
    Checked.ok_bind]
  apply forRange_all_rows
  intro i
  have hset (N : Mat α n (2 * n)) : N.stored.setEntry i (n + i) 1 =
      .ok (N.setEntry i (Augmented.rightColumn i) 1).stored :=
    N.setEntry_stored i (Augmented.rightColumn i) 1
  rw [row_stored, Checked.ok_bind, setRowStart_stored _ i (by omega), Checked.ok_bind, hset]
  congr 2
  ext r c
  rw [setEntry_apply, setRow_apply]
  rcases eq_or_ne r i with rfl | hr
  · rw [blend_of_le le_rfl, blend_of_lt (Nat.lt_succ_self _), Augmented.joined, entry_ofFn]
    by_cases hc : c.val < n
    · have hne : c ≠ Augmented.rightColumn r := by
        rintro rfl
        exact absurd hc (not_lt.mpr (Nat.le_add_right n r))
      simp [hc, hne]
    · have hright : c = Augmented.rightColumn r ↔ r = ⟨c - n, by omega⟩ := by
        simp only [Augmented.rightColumn, Fin.ext_iff]
        omega
      simp [hc, hright]
  · rw [if_neg fun h => hr h.1, if_neg hr, blend_succ_of_ne (Fin.val_ne_of_ne hr)]

theorem inversionStep_stored (i : Fin n) (s : Augmented α n) :
    Stored.inversionStep i s.joined.stored =
      ((inversionStep i s).map fun t => t.joined.stored).mapError fun _ => .refused .singular := by
  have hpivot : s.joined.stored.largestRow i i = .ok (s.left.largestRow i i).val := by
    have h := s.joined.largestRow_stored i (Augmented.leftColumn i)
    rwa [largestRow_congr fun r _ => s.joined_left r i] at h
  generalize hr : s.left.largestRow i i = r at hpivot
  have hentry : (s.joined.swapRows i r).stored.entry i i = .ok (s.left r i) := by
    have h := (s.joined.swapRows i r).entry_stored i (Augmented.leftColumn i)
    rwa [swapRows_apply_left, s.joined_left] at h
  rw [Stored.inversionStep, hpivot, Checked.ok_bind, swapRows_stored, Checked.ok_bind, hentry,
    Checked.ok_bind, inversionStep_eq hr]
  split_ifs with hn
  · rfl
  · have hclear (N : Mat α n (2 * n)) : N.stored.clearColumn i i =
        .ok (N.eliminate i (· ≠ i) fun r => N r (Augmented.leftColumn i)).stored :=
      N.clearColumn_stored i (Augmented.leftColumn i)
    rw [divRow_stored, Checked.ok_bind, hclear]
    refine congrArg (fun N : Mat α n (2 * n) => (.ok N.stored : Checked (Stored α)))
      (Augmented.eq_joined ?_ ?_)
    · intro p j
      simp only [eliminate_apply, divRow_apply, swapRows_apply, s.joined_left]
      split_ifs <;> rfl
    · intro p j
      simp only [eliminate_apply, divRow_apply, swapRows_apply, s.joined_left, s.joined_right]
      split_ifs <;> rfl

omit [Scalar α] in
theorem rightHalf_stored [SizeArithmetic] (hn : 0 < n) (h : Fits n n) (s : Augmented α n) :
    s.joined.stored.rightHalf n = .ok s.right.stored := by
  have hcut : ((List.finRange n).map fun i => (s.joined.row i).toArray).mapM
      (fun row => slice row n row.size) =
      .ok ((List.finRange n).map fun i => (s.right.row i).toArray) := by
    rw [List.mapM_map]
    apply mapM_eq_ok
    intro i _
    rw [Function.comp_apply, Vec.size_toArray, slice, if_pos ⟨by omega, by simp⟩]
    congr 1
    apply Array.ext
    · simp
      omega
    · intro j hj hj'
      have hjn : j < n := by simpa using hj'
      rw [Array.getElem_extract, Vec.getElem_toArray _ ⟨j, hjn⟩ hj', row_apply, ← s.joined_right]
      exact (s.joined.row i).getElem_toArray (Augmented.rightColumn ⟨j, hjn⟩) _
  rw [Stored.rightHalf, rows_stored _ (by omega), Checked.ok_bind, hcut, Checked.ok_bind,
    ← List.ofFn_eq_map, List.toArray_ofFn, flatten_rows]
  exact ofFlat_flat hn hn h _

section

variable [SizeArithmetic]

theorem inverse_stored (hn : 0 < n) (h : Fits n (2 * n)) (A : Mat α n n) :
    A.stored.inverse = liftM ((orError .singular A.inverse).map Mat.stored) := by
  have hrun := forRange_eq_tryAfterSteps (Augmented.mk A (identity n))
    (fun _ s => s.joined.stored) (fun _ => Stop.refused .singular)
    (fun i s _ => inversionStep_stored i s) n le_rfl
  rw [Stored.inverse, side_stored, Checked.ok_bind, augment_stored hn h, Checked.ok_bind,
    hrun, inverse, inversionUpTo]
  cases tryAfterSteps inversionStep (Augmented.mk A (identity n)) n le_rfl with
  | error e => rfl
  | ok s => exact rightHalf_stored hn h.of_half s

theorem solve_stored (hn : 0 < n) (h : Fits n (2 * n)) (A : Mat α n n) (b : Vec α n) :
    A.stored.solve b.toArray = liftM ((orError .singular (A.solve b)).map Vec.toArray) := by
  rw [Stored.solve, side_stored, Checked.ok_bind, DenseVector.check_toArray hn,
    Checked.lift_error_ok, Checked.ok_bind, if_pos rfl, inverse_stored hn h, solve]
  cases A.inverse with
  | none => rfl
  | some B => exact mulVec_stored hn B b

theorem changeOfBasis_stored (hn : 0 < n) (h : Fits n (2 * n)) (A B : Mat α n n) :
    A.stored.changeOfBasis B.stored =
      liftM ((orError .singular B.inverse).map fun C => (C.mul A).stored) := by
  rw [Stored.changeOfBasis, side_stored, Checked.ok_bind, side_stored, Checked.ok_bind, if_pos rfl,
    inverse_stored hn h]
  cases B.inverse with
  | none => rfl
  | some C => exact mul_stored hn hn h.of_half C A

end

end Mat

end DenseLinear
