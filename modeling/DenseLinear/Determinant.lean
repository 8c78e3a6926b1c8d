import DenseLinear.Event
import DenseLinear.PartialPivot
import DenseLinear.Steps

/-!
# Determinant

Gaussian elimination with partial pivoting. The determinant is the product of the pivots, with a
change of sign for each exchange of rows; it is `0` as soon as a pivot is negligible.
-/

namespace DenseLinear

/-- A matrix cleared below the diagonal in its first columns, and the signed product of the pivots
so far. -/
structure Elimination (α : Type) (n : Nat) where
  matrix : Mat α n n
  det : α

variable {α : Type} [Scalar α] {n : Nat}

/-- Exchanges rows `i` and `r`, with the sign of the exchange. -/
def Elimination.exchange (s : Elimination α n) (i r : Fin n) : Elimination α n :=
  if r = i then s else ⟨s.matrix.swapRows i r, -s.det⟩

namespace Mat

/-- Chooses the pivot of column `i` and clears the column below it. -/
def eliminationStep (i : Fin n) (s : Elimination α n) : Except (Stall α) (Elimination α n) :=
  let t := s.exchange i (s.matrix.largestRow i i)
  let pivot := t.matrix i i
  if Negligible pivot then .error ⟨i, pivot⟩
  else .ok ⟨t.matrix.eliminate i (i < ·) fun r => t.matrix r i / pivot, t.det * pivot⟩

theorem exchange_matrix (s : Elimination α n) (i r : Fin n) :
    (s.exchange i r).matrix = s.matrix.swapRows i r := by
  unfold Elimination.exchange
  split
  · rename_i h
    rw [h, swapRows_self]
  · rfl

theorem eliminationStep_eq {i r : Fin n} {s : Elimination α n}
    (hr : s.matrix.largestRow i i = r) :
    eliminationStep i s =
      if Negligible (s.matrix r i) then .error ⟨i, s.matrix r i⟩
      else .ok ⟨(s.matrix.swapRows i r).eliminate i (i < ·)
          fun p => (s.matrix.swapRows i r) p i / s.matrix r i,
        (s.exchange i r).det * s.matrix r i⟩ := by
  subst hr
  simp only [eliminationStep, exchange_matrix, swapRows_apply_left]

def eliminationUpTo (A : Mat α n n) (k : Nat) (h : k ≤ n) : Except (Stall α) (Elimination α n) :=
  tryAfterSteps eliminationStep ⟨A, 1⟩ k h

def elimination (A : Mat α n n) : Except (Stall α) (Elimination α n) :=
  A.eliminationUpTo n (Nat.le_refl n)

def det (A : Mat α n n) : α :=
  match A.elimination with
  | .ok s => s.det
  | .error _ => 0

def eliminationEvents (A : Mat α n n) : List (Event α) :=
  match A.elimination with
  | .ok _ => []
  | .error stall => [.negligiblePivot stall.pivot stall.step]

end Mat

end DenseLinear
