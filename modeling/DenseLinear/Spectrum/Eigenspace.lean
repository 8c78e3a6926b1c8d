import DenseLinear.Spectrum.Iteration
import DenseLinear.Subspace

/-!
# Eigenspaces

The eigenspace of a value is the null space of the matrix with that value taken from its diagonal.
-/

namespace DenseLinear

/-- An eigenvalue and a basis of its eigenspace, empty if none was found. -/
structure Eigenpair (α : Type) (n : Nat) where
  value : α
  basis : List (Vec α n)

namespace Mat

variable {α : Type} {n : Nat}

def shift [Scalar α] (A : Mat α n n) (value : α) : Mat α n n :=
  ofFn fun i j => if i = j then A i j - value else A i j

@[simp] theorem shift_apply [Scalar α] (A : Mat α n n) (value : α) (i j : Fin n) :
    (A.shift value) i j = if i = j then A i j - value else A i j := by
  simp [shift]

variable [RootScalar α]

/-- The null space of the shifted matrix, without vectors of negligible length. -/
def eigenspace (A : Mat α n n) (value : α) : List (Vec α n) :=
  (A.shift value).nullSpace.filter fun v => decide (Scalar.eps < v.norm)

def eigenvector (A : Mat α n n) (value : α) : Traced α (List (Vec α n)) := do
  Traced.report (A.shift value).reduction.events
  return A.eigenspace value

/-- One pair for each eigenvalue in order. A repeated value comes with its whole basis each
time. -/
def eigenpairs (A : Mat α n n) : Traced α (List (Eigenpair α n)) := do
  let values ← A.eigenvalues .standard
  values.toList.mapM fun value => return ⟨value, ← A.eigenvector value⟩

end Mat

end DenseLinear
