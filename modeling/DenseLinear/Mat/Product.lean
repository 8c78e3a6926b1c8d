import DenseLinear.Mat.Basic
import DenseLinear.Vec.Product

/-!
# Products of matrices

As with inner products, the order of the additions is part of each definition.
-/

namespace DenseLinear.Mat

variable {α : Type} [Scalar α] {m n k : Nat}

def mulVec (A : Mat α m n) (x : Vec α n) : Vec α m := .ofFn fun i => (A.row i).dot x

/-- The product of two matrices. Each entry is a running total that starts from `0`. -/
def mul (A : Mat α m k) (B : Mat α k n) : Mat α m n :=
  ofFn fun i j => sumFrom 0 fun p : Fin k => A i p * B p j

def trace (A : Mat α n n) : α := sum fun i => A i i

@[simp] theorem mulVec_apply (A : Mat α m n) (x : Vec α n) (i : Fin m) :
    (A.mulVec x) i = (A.row i).dot x := by
  simp [mulVec]

@[simp] theorem mul_apply (A : Mat α m k) (B : Mat α k n) (i : Fin m) (j : Fin n) :
    (A.mul B) i j = sumFrom 0 fun p : Fin k => A i p * B p j := by
  simp [mul]

/-- The transpose of a product adds the same products in the same order, once factors commute. -/
theorem transpose_mul_of_comm (hcomm : ∀ x y : α, x * y = y * x) (A : Mat α m k) (B : Mat α k n) :
    (A.mul B).transpose = B.transpose.mul A.transpose := by
  ext i j
  simp only [transpose_apply, mul_apply]
  congr 1
  funext p
  exact hcomm _ _

end DenseLinear.Mat
