/-!
# Scalars

The arithmetic every algorithm of the library is written over. Nothing is assumed of it: the same
definitions run on rounded machine numbers and are read over exact ordered fields.
-/

namespace DenseLinear

/-- Numbers with arithmetic, a test of order and of equality, a magnitude, and the tolerance below
which a magnitude counts as zero. -/
class Scalar (α : Type) extends
    Zero α, One α, Add α, Sub α, Mul α, Div α, Neg α, LT α, BEq α where
  abs : α → α
  eps : α
  decidableLT : DecidableLT α

instance instDecidableLT {α : Type} [Scalar α] (x y : α) : Decidable (x < y) :=
  Scalar.decidableLT x y

-- A type that has these operations already keeps its own.
attribute [instance (100)] Scalar.toZero Scalar.toOne Scalar.toAdd Scalar.toSub Scalar.toMul
  Scalar.toDiv Scalar.toNeg Scalar.toLT Scalar.toBEq instDecidableLT

/-- Scalars with square roots, as lengths of vectors need them. -/
class RootScalar (α : Type) extends Scalar α where
  sqrt : α → α

instance instRootScalarFloat : RootScalar Float where
  zero := 0
  one := 1
  abs := Float.abs
  eps := 1e-10
  decidableLT := inferInstance
  sqrt := Float.sqrt

/-- The `k`-th index, for `k` below `i`. -/
def before {n : Nat} (i : Fin n) (k : Fin i) : Fin n := k.castLE (Nat.le_of_lt i.isLt)

/-- The `k`-th index after `i`. -/
def after {n : Nat} (i : Fin n) (k : Fin (n - (i + 1))) : Fin n := ⟨i + 1 + k, by omega⟩

section

variable {α : Type} [Scalar α] {n : Nat}

/-- The magnitude of `x` is above the tolerance. -/
def Significant (x : α) : Prop := Scalar.eps < Scalar.abs x

instance instDecidableSignificant (x : α) : Decidable (Significant x) :=
  inferInstanceAs (Decidable (Scalar.eps < Scalar.abs x))

/-- The magnitude of `x` is below the tolerance. Neither this nor `Significant` holds of a value at
the tolerance, or of one that is not a number. -/
def Negligible (x : α) : Prop := Scalar.abs x < Scalar.eps

instance instDecidableNegligible (x : α) : Decidable (Negligible x) :=
  inferInstanceAs (Decidable (Scalar.abs x < Scalar.eps))

/-- Adds the terms to `start` from left to right. -/
def sumFrom (start : α) (f : Fin n → α) : α := Fin.foldl n (fun s i => s + f i) start

/-- The sum of the terms from left to right. It starts from `-0`, the neutral element of rounded
addition, so a sum of negative zeros keeps its sign. -/
def sum (f : Fin n → α) : α := sumFrom (-0) f

def sumBefore (i : Fin n) (f : Fin n → α) : α := sum fun k => f (before i k)

def sumAfter (i : Fin n) (f : Fin n → α) : α := sum fun k => f (after i k)

def product (f : Fin n → α) : α := Fin.foldl n (fun p i => p * f i) 1

theorem before_lt (i : Fin n) (k : Fin i) : before i k < i := k.isLt

theorem lt_after (i : Fin n) (k : Fin (n - (i + 1))) : i < after i k := by
  have h : i.val < i + 1 + k := by omega
  exact h

theorem sumBefore_congr {i : Fin n} {f g : Fin n → α} (h : ∀ k < i, f k = g k) :
    sumBefore i f = sumBefore i g :=
  congrArg sum (funext fun k => h _ (before_lt i k))

theorem sumAfter_congr {i : Fin n} {f g : Fin n → α} (h : ∀ k, i < k → f k = g k) :
    sumAfter i f = sumAfter i g :=
  congrArg sum (funext fun k => h _ (lt_after i k))

end

end DenseLinear
