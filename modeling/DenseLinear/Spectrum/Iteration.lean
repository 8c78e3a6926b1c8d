import DenseLinear.Event
import DenseLinear.Factor.Orthogonal

/-!
# Eigenvalue iteration

Each step factors the matrix and multiplies its orthogonal factors in the other order. The run
settles when no diagonal entry changes by the tolerance or more, and is exhausted when its steps
are used up; either way its answer is the diagonal it reached.
-/

namespace DenseLinear

/-- How long the iteration goes on. -/
structure IterationOptions (α : Type) where
  maxSteps : Nat
  tolerance : α

def IterationOptions.standard {α : Type} [Scalar α] : IterationOptions α := ⟨1000, Scalar.eps⟩

/-- How a run ended, and the matrix it reached. -/
inductive Outcome (α : Type) (n : Nat) where
  | settled (steps : Nat) (last : Mat α n n)
  | exhausted (last : Mat α n n)

namespace Outcome

variable {α : Type} {n : Nat}

def last : Outcome α n → Mat α n n
  | settled _ A => A
  | exhausted A => A

def event (limit : Nat) : Outcome α n → Event α
  | settled steps _ => .settled steps
  | exhausted _ => .exhausted limit

end Outcome

namespace Mat

variable {α : Type} [RootScalar α] {n : Nat}

/-- The product of the orthogonal factors in the other order. -/
def swapFactors (A : Mat α n n) : Except (Fin n) (Mat α n n) :=
  A.qr.map fun f => f.r.mul f.q

/-- Every diagonal entry of `B` is within the tolerance of that of `A`. -/
def DiagonalSettled (tolerance : α) (A B : Mat α n n) : Prop :=
  ∀ i, Scalar.abs (B i i - A i i) < tolerance

instance (tolerance : α) (A B : Mat α n n) : Decidable (DiagonalSettled tolerance A B) :=
  inferInstanceAs (Decidable (∀ i, Scalar.abs (B i i - A i i) < tolerance))

/-- Runs at most `budget` steps from `A`, which was reached after `done` of them. -/
def iterateFactors (tolerance : α) :
    (budget done : Nat) → Mat α n n → Except (Fin n) (Outcome α n)
  | 0, _, A => .ok (.exhausted A)
  | budget + 1, done, A =>
    match A.swapFactors with
    | .error column => .error column
    | .ok B =>
      if DiagonalSettled tolerance A B then .ok (.settled (done + 1) B)
      else iterateFactors tolerance budget (done + 1) B

def eigenvalues (A : Mat α n n) (options : IterationOptions α) : Traced α (Vec α n) :=
  match A.iterateFactors options.tolerance options.maxSteps 0 with
  | .error column => liftM (.error (.rankDeficient column) : Except Error _)
  | .ok outcome => do
    Traced.report [outcome.event options.maxSteps]
    return .ofFn fun i => outcome.last i i

end Mat

end DenseLinear
