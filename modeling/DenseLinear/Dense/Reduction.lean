import DenseLinear.Dense.Basic
import DenseLinear.Dense.Vector
import DenseLinear.Subspace

/-!
# Reduction of dense matrices

Every quantity here reads the reduced form, and reports the one reduction that it runs.
-/

namespace DenseLinear.DenseMatrix

variable {α β : Type} [Scalar α]

/-- Reports the reduction of `A` and answers `b`. -/
def withReduction (A : DenseMatrix α) (b : β) : Traced α β := do
  Traced.report A.entries.reduction.events
  return b

@[simp] theorem result_withReduction (A : DenseMatrix α) (b : β) :
    (A.withReduction b).result = .ok b := rfl

@[simp] theorem events_withReduction (A : DenseMatrix α) (b : β) :
    (A.withReduction b).events = A.entries.reduction.events := List.append_nil _

def rref (A : DenseMatrix α) : Traced α (DenseMatrix α) :=
  A.withReduction (A.withEntries A.entries.rref)

def pivotColumns (A : DenseMatrix α) : Traced α (List Nat) :=
  A.withReduction (A.entries.pivotColumns.map (·.val))

def rank (A : DenseMatrix α) : Traced α Nat := A.withReduction A.entries.rank

def nullity (A : DenseMatrix α) : Traced α UInt64 := A.withReduction A.entries.nullity

def independentColumns (A : DenseMatrix α) : Traced α Bool :=
  A.withReduction (decide A.entries.FullColumnRank)

def nullSpace (A : DenseMatrix α) : Traced α (List (DenseVector α)) :=
  A.withReduction (A.entries.nullSpace.map (·.toArray))

def columnSpace (A : DenseMatrix α) : Traced α (List (DenseVector α)) :=
  A.withReduction (A.entries.columnSpace.map (·.toArray))

def rowSpace (A : DenseMatrix α) : Traced α (List (DenseVector α)) :=
  A.withReduction (A.entries.rowSpace.map (·.toArray))

end DenseLinear.DenseMatrix
