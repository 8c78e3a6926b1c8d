import DenseLinear.Storage.Build

/-!
# Triangular factors in storage

The two factors are filled entry by entry, a row of the upper one and a column of the lower one in
turn.
-/

namespace DenseLinear

variable {α : Type} [Scalar α]

/-- The inner product of two stretches of the same place and length. -/
def dotBetween (x y : Array α) (start stop : Nat) : Checked α := do
  DenseVector.dot (← slice x start stop) (← slice y start stop)

namespace Stored

/-- The sum of the first `i` products of row `r` of `L` with column `c` of `U`. -/
def partialProduct (L U : Stored α) (i r c : Nat) : Checked α :=
  forRange 0 i (fun k s => do return s + (← L.entry r k) * (← U.entry k c)) (-0)

def fillUpper (A L U : Stored α) (n i : Nat) : Checked (Stored α) :=
  forRange i n (fun j (U : Stored α) => do
    let known ← partialProduct L U i i j
    U.setEntry i j ((← A.entry i j) - known)) U

def fillLower (A L U : Stored α) (n i : Nat) (pivot : α) : Checked (Stored α) :=
  forRange (i + 1) n (fun j (L : Stored α) => do
    let known ← partialProduct L U i j i
    L.setEntry j i (((← A.entry j i) - known) / pivot)) L

def luStep (A : Stored α) (n i : Nat) (f : Stored α × Stored α) :
    Checked (Stored α × Stored α) := do
  let U ← fillUpper A f.1 f.2 n i
  let pivot ← U.entry i i
  if Negligible pivot then .error (.refused (.zeroPivot i))
  else
    let L ← f.1.setEntry i i 1
    return (← fillLower A L U n i pivot, U)

def lu [SizeArithmetic] (A : Stored α) : Checked (Stored α × Stored α) := do
  let n ← A.side
  forRange 0 n (luStep A n) (← zeros n n, ← zeros n n)

/-- The part of equation `i` of `L y = b` that is known from the entries before. -/
def knownBefore (L : Stored α) (y : Array α) (i : Nat) : Checked α :=
  if i = 0 then .ok 0 else do dotBetween (← L.row i) y 0 i

/-- The part of equation `i` of `U x = y` that is known from the entries after. -/
def knownAfter (U : Stored α) (x : Array α) (n i : Nat) : Checked α :=
  if i + 1 = n then .ok 0 else do dotBetween (← U.row i) x (i + 1) n

def solveFactored (L U : Stored α) (b : Array α) : Checked (Array α) := do
  let n := U.height
  let length ← DenseVector.check b
  if length = n then
    let y ← forRange 0 n (fun i y => do
      let known ← L.knownBefore y i
      store y i ((← fetch b i) - known)) (Array.replicate n 0)
    forRange 0 n (fun k x => do
      let i := n - (k + 1)
      let known ← U.knownAfter x n i
      store x i (((← fetch y i) - known) / (← U.entry i i))) (Array.replicate n 0)
  else .error (.refused (.mismatch (.vector n) (.vector length)))

end Stored

end DenseLinear
