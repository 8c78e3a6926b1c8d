import DenseLinear.Spectrum.Iteration
import DenseLinear.Storage.Elimination
import DenseLinear.Storage.Orthogonal

/-!
# The spectrum in storage

The eigenvalue iteration, eigenspaces and diagonalization, put together from the operations on
stored matrices.
-/

namespace DenseLinear.Stored

variable {α : Type} [RootScalar α]

/-- The next matrix of the iteration. Leaves the loop with its diagonal if that has settled. -/
def iterationStep [SizeArithmetic] (tolerance : α) (M : Stored α) :
    Except (Exit (Array α)) (Stored α) := do
  let f ← M.qr
  let next ← f.2.mul f.1
  let new ← next.diagonal
  let old ← M.diagonal
  if (new.zip old).all fun p => decide (Scalar.abs (p.1 - p.2) < tolerance) then
    .error (.answer new)
  else return next

def eigenvalues [SizeArithmetic] (M : Stored α) (options : IterationOptions α) :
    Checked (Array α) := do
  let _ ← M.side
  Exit.close diagonal (forRange 0 options.maxSteps (fun _ => iterationStep options.tolerance) M)

def shift (M : Stored α) (n : Nat) (value : α) : Checked (Stored α) :=
  forRange 0 n (fun i (N : Stored α) => do N.setEntry i i ((← N.entry i i) - value)) M

/-- Adds the vector to those found, unless its length is negligible. -/
def keepLong (found : List (Array α)) (v : Array α) : Checked (List (Array α)) := do
  if Scalar.eps < (← DenseVector.norm v) then return found ++ [v] else return found

def eigenvector (M : Stored α) (value : α) : Checked (List (Array α)) := do
  let n ← M.side
  (← (← M.shift n value).nullSpace).foldlM keepLong []

def eigenpairs [SizeArithmetic] (M : Stored α) : Checked (List (α × List (Array α))) := do
  let _ ← M.side
  (← M.eigenvalues .standard).toList.mapM fun value => do return (value, ← M.eigenvector value)

/-- Adds the eigenvectors of a pair to those found, unless its value has some already. -/
def collectStep (found : List (Array α) × List α) (pair : α × List (Array α)) :
    List (Array α) × List α :=
  if found.2.any (· == pair.1) then found
  else (found.1 ++ pair.2, found.2 ++ pair.2.map fun _ => pair.1)

def diagonalize [SizeArithmetic] (M : Stored α) :
    Checked (Stored α × Stored α × Stored α) := do
  let n ← M.side
  let found := (← M.eigenpairs).foldl collectStep ([], [])
  if found.1.length = n then
    let P ← ofColumns found.1.toArray
    let D ← ofDiagonal found.2.toArray
    return (P, D, ← P.inverse)
  else .error (.refused (.notDiagonalizable found.1.length n))

def product [SizeArithmetic] (P D Q : Stored α) : Checked (Stored α) := do (← P.mul D).mul Q

end DenseLinear.Stored
