import DenseLinear.Storage.Reduction

/-!
# Elimination in storage

The determinant and the inverse, in place. The inverse works on one matrix of twice the width, whose
left half starts as the matrix and whose right half starts as the identity.
-/

namespace DenseLinear.Stored

variable {α : Type}

section

variable [Scalar α]

/-- Among the rows from `start` on, the first whose entry in column `c` has the greatest
magnitude. -/
def largestRow (M : Stored α) (start c : Nat) : Checked Nat :=
  forRange (start + 1) M.height (fun r best => do
    let x ← M.entry r c
    let y ← M.entry best c
    return if Scalar.abs y < Scalar.abs x then r else best) start

def exchange (s : Stored α × α) (i r : Nat) : Checked (Stored α × α) :=
  if r = i then .ok s else return (← s.1.swapRows i r, -s.2)

/-- Takes multiples of row `i` from the rows below, as many as their entries in column `i` hold the
pivot. -/
def clearBelow (M : Stored α) (i : Nat) (pivot : α) : Checked (Stored α) :=
  forRange (i + 1) M.height (fun r (N : Stored α) => do
    N.subRowMultiple r i ((← N.entry r i) / pivot)) M

/-- Chooses the pivot of column `i` and clears the column below it. Leaves the loop with `0` if the
pivot is negligible. -/
def eliminationStep (i : Nat) (s : Stored α × α) : Except (Exit α) (Stored α × α) := do
  let t ← exchange s i (← s.1.largestRow i i)
  let pivot ← t.1.entry i i
  if Negligible pivot then .error (.answer 0)
  else return (← t.1.clearBelow i pivot, t.2 * pivot)

def det (M : Stored α) : Checked α := do
  let n ← M.side
  Exit.close (fun s => .ok s.2) (forRange 0 n eliminationStep (M, 1))

def inversionStep (i : Nat) (M : Stored α) : Checked (Stored α) := do
  let M ← M.swapRows i (← M.largestRow i i)
  let pivot ← M.entry i i
  if Negligible pivot then .error (.refused .singular)
  else (← M.divRow i pivot).clearColumn i i

end

def rightHalf [SizeArithmetic] (M : Stored α) (n : Nat) : Checked (Stored α) := do
  let right ← (← M.rows).mapM fun row => slice row n row.size
  ofFlat right.toArray.flatten n n

variable [Scalar α] [SizeArithmetic]

def augment (M : Stored α) (n : Nat) : Checked (Stored α) := do
  forRange 0 n (fun i (N : Stored α) => do
    let N ← N.setRowStart i n (← M.row i)
    N.setEntry i (n + i) 1) (← zeros n (← times 2 n))

def inverse (M : Stored α) : Checked (Stored α) := do
  let n ← M.side
  (← forRange 0 n inversionStep (← M.augment n)).rightHalf n

def solve (M : Stored α) (b : Array α) : Checked (Array α) := do
  let n ← M.side
  let length ← DenseVector.check b
  if length = n then (← M.inverse).mulVec b
  else .error (.refused (.mismatch (.vector n) (.vector length)))

def changeOfBasis (old new : Stored α) : Checked (Stored α) := do
  let n ← old.side
  let n' ← new.side
  if n = n' then (← new.inverse).mul old else .error (.refused (.shape .basesDiffer))

end DenseLinear.Stored
