import DenseLinear.Mat.Product
import DenseLinear.Mat.RowOps
import DenseLinear.PartialPivot
import DenseLinear.Steps

/-!
# Inverse

Gauss–Jordan elimination with partial pivoting on a matrix and the identity side by side. When the
left side has become the identity, the right side is the inverse.
-/

namespace DenseLinear

/-- Two square matrices under the same row operations. -/
structure Augmented (α : Type) (n : Nat) where
  left : Mat α n n
  right : Mat α n n

namespace Mat

variable {α : Type} [Scalar α] {n : Nat}

/-- Chooses the pivot of column `i` on the left and clears the column elsewhere, on both sides. -/
def inversionStep (i : Fin n) (s : Augmented α n) : Except (Stall α) (Augmented α n) :=
  let r := s.left.largestRow i i
  let left := s.left.swapRows i r
  let right := s.right.swapRows i r
  let pivot := left i i
  if Negligible pivot then .error ⟨i, pivot⟩
  else .ok
    ⟨(left.divRow i pivot).eliminate i (· ≠ i) fun r => left r i,
      (right.divRow i pivot).eliminate i (· ≠ i) fun r => left r i⟩

theorem inversionStep_eq {i r : Fin n} {s : Augmented α n} (hr : s.left.largestRow i i = r) :
    inversionStep i s =
      if Negligible (s.left r i) then .error ⟨i, s.left r i⟩
      else .ok
        ⟨((s.left.swapRows i r).divRow i (s.left r i)).eliminate i (· ≠ i)
            ((s.left.swapRows i r).entry · i),
          ((s.right.swapRows i r).divRow i (s.left r i)).eliminate i (· ≠ i)
            ((s.left.swapRows i r).entry · i)⟩ := by
  subst hr
  simp only [inversionStep, swapRows_apply_left]

def inversionUpTo (A : Mat α n n) (k : Nat) (h : k ≤ n) : Except (Stall α) (Augmented α n) :=
  tryAfterSteps inversionStep ⟨A, identity n⟩ k h

/-- The inverse, or `none` if a pivot was negligible. -/
def inverse (A : Mat α n n) : Option (Mat α n n) :=
  match A.inversionUpTo n (Nat.le_refl n) with
  | .ok s => some s.right
  | .error _ => none

def solve (A : Mat α n n) (b : Vec α n) : Option (Vec α n) := A.inverse.map (·.mulVec b)

end Mat

end DenseLinear
