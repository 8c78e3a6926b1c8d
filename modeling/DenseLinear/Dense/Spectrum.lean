import DenseLinear.Dense.Basic
import DenseLinear.Dense.Vector
import DenseLinear.Spectrum.Diagonalization

/-!
# Orthogonal factors, eigenvalues and diagonalization of dense matrices
-/

namespace DenseLinear.DenseMatrix

variable {α : Type} [RootScalar α]

def qr (A : DenseMatrix α) : Except Error (QR α A.height A.width) :=
  A.entries.qr.mapError fun j : Fin A.width => .rankDeficient j

def ofWidth (A : DenseMatrix α) (B : Mat α A.width A.width) : DenseMatrix α :=
  ⟨A.width, A.width, A.width_pos, A.width_pos, B⟩

def eigenvalues (A : DenseMatrix α) (options : IterationOptions α) :
    Traced α (DenseVector α) := do
  return (← (← A.toSquare).eigenvalues options).toArray

def eigenvector (A : DenseMatrix α) (value : α) : Traced α (List (DenseVector α)) := do
  return (← (← A.toSquare).eigenvector value).map (·.toArray)

def eigenpairs (A : DenseMatrix α) : Traced α (List (Eigenpair α A.height)) := do
  (← A.toSquare).eigenpairs

def diagonalize (A : DenseMatrix α) : Traced α (Diagonalization α A.height) := do
  (← A.toSquare).diagonalize

end DenseLinear.DenseMatrix
