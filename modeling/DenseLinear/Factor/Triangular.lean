import DenseLinear.Mat.Product
import DenseLinear.Steps

/-!
# Triangular factors

A square matrix as the product of a unit lower and an upper triangular one, without exchanges of
rows, and the solution of a system by forward and back substitution.
-/

namespace DenseLinear

structure LU (α : Type) (n : Nat) where
  lower : Mat α n n
  upper : Mat α n n

variable {α : Type} [Scalar α] {n : Nat}

namespace LU

/-- What the first `i` columns and rows of the factors leave of the entry of `A` at `r`, `c`. -/
def remainder (f : LU α n) (A : Mat α n n) (i r c : Fin n) : α :=
  A r c - sumBefore i fun k => f.lower r k * f.upper k c

/-- Fills row `i` of the upper factor and column `i` of the lower factor. Refused at `i` if the
pivot is negligible. -/
def step (A : Mat α n n) (i : Fin n) (f : LU α n) : Except (Fin n) (LU α n) :=
  let pivot := f.remainder A i i i
  if Negligible pivot then .error i
  else .ok
    ⟨f.lower.setCol i fun r =>
        if r = i then 1 else if i < r then f.remainder A i r i / pivot else f.lower r i,
      f.upper.setRow i fun c => if i ≤ c then f.remainder A i i c else f.upper i c⟩

/-- The factors after the first `k` rows and columns; the rest of both is zero. -/
def upTo (A : Mat α n n) (k : Nat) (h : k ≤ n) : Except (Fin n) (LU α n) :=
  tryAfterSteps (step A) ⟨.zero n n, .zero n n⟩ k h

/-- The determinant of the product: the lower factor has determinant one. -/
def det (f : LU α n) : α := product fun i => f.upper i i

/-- Finds entry `i` of the solution of `L y = b` from the entries before it. -/
def forwardStep (f : LU α n) (b : Vec α n) (i : Fin n) (y : Vec α n) : Vec α n :=
  let known := if i.val = 0 then 0 else sumBefore i fun k => f.lower i k * y k
  y.set i (b i - known)

/-- Finds entry `i` of the solution of `U x = y` from the entries after it. -/
def backwardStep (f : LU α n) (y : Vec α n) (i : Fin n) (x : Vec α n) : Vec α n :=
  let known := if i.val + 1 = n then 0 else sumAfter i fun k => f.upper i k * x k
  x.set i ((y i - known) / f.upper i i)

def forward (f : LU α n) (b : Vec α n) : Vec α n :=
  afterSteps (f.forwardStep b) (.replicate n 0) n (Nat.le_refl n)

def backward (f : LU α n) (y : Vec α n) : Vec α n :=
  afterSteps (fun k => f.backwardStep y k.rev) (.replicate n 0) n (Nat.le_refl n)

def solve (f : LU α n) (b : Vec α n) : Vec α n := f.backward (f.forward b)

end LU

/-- The triangular factors, or the index of the first negligible pivot. -/
def Mat.lu (A : Mat α n n) : Except (Fin n) (LU α n) := LU.upTo A n (Nat.le_refl n)

end DenseLinear
