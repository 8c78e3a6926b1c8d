import DenseLinear.Inverse
import DenseLinear.Spectrum.Eigenspace

/-!
# Diagonalization

A square matrix as `P D P⁻¹`: the columns of `P` are eigenvectors, and the diagonal of `D` holds
their eigenvalues.
-/

namespace DenseLinear

structure Diagonalization (α : Type) (n : Nat) where
  p : Mat α n n
  d : Mat α n n
  pInv : Mat α n n

structure Eigenvector (α : Type) (n : Nat) where
  vector : Vec α n
  value : α

variable {α : Type} {n : Nat}

def Diagonalization.product [Scalar α] (f : Diagonalization α n) : Mat α n n :=
  (f.p.mul f.d).mul f.pInv

/-- The eigenvectors of all pairs. A pair whose value already has eigenvectors is skipped, as it
would only repeat them. -/
def collect [BEq α] (pairs : List (Eigenpair α n)) : List (Eigenvector α n) :=
  pairs.foldl (fun found pair =>
    if found.any (·.value == pair.value) then found
    else found ++ pair.basis.map (⟨·, pair.value⟩)) []

namespace Mat

variable [RootScalar α]

def diagonalizeWith (found : List (Eigenvector α n)) : Except Error (Diagonalization α n) :=
  if h : found.length = n then
    let columns : Vec (Eigenvector α n) n := .ofArray found.toArray h
    let p := ofCols (columns.map (·.vector))
    match p.inverse with
    | some pInv => .ok ⟨p, ofDiagonal (columns.map (·.value)), pInv⟩
    | none => .error .singular
  else .error (.notDiagonalizable found.length n)

def diagonalize (A : Mat α n n) : Traced α (Diagonalization α n) := do
  let found := collect (← A.eigenpairs)
  Traced.report [.collected found.length n]
  diagonalizeWith found

end Mat

end DenseLinear
