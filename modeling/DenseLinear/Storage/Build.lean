import DenseLinear.Dense.Product
import DenseLinear.Storage.Access
import DenseLinear.Storage.Sizes

/-!
# Building and multiplying stored matrices

Each operation that makes a matrix fills a new array in loops. The array is as long as the product
of the sides that it is made for, in the arithmetic of sizes at hand.
-/

namespace DenseLinear

variable {α : Type}

def total [Scalar α] (x : Array α) : α := x.foldl (· + ·) (-0)

namespace Stored

def ofFlat [SizeArithmetic] (data : Array α) (r c : Nat) : Checked (Stored α) :=
  if 0 < r ∧ 0 < c then do
    if (← times r c) = data.size then return ⟨data, r, c⟩
    else .error (.refused (.shape .entryCount))
  else .error (.refused (.shape .zeroSide))

/-- Room is made for the entries before they are copied, so their number is computed. -/
def ofRows [SizeArithmetic] (rows : Array (Array α)) : Checked (Stored α) := do
  let ⟨width, _⟩ ← checkRows rows
  let _ ← times rows.size width
  return ⟨rows.flatten, rows.size, width⟩

def map {β : Type} (f : α → β) (M : Stored α) : Stored β := ⟨M.data.map f, M.height, M.width⟩

section

variable [Zero α]

def zeros [SizeArithmetic] (r c : Nat) : Checked (Stored α) :=
  if 0 < r ∧ 0 < c then do return ⟨Array.replicate (← times r c) 0, r, c⟩
  else .error (.fault (.misuse .zeroSide))

def identity [One α] [SizeArithmetic] (n : Nat) : Checked (Stored α) := do
  forRange 0 n (fun i (N : Stored α) => N.write i i 1) (← zeros n n)

def ofDiagonal [SizeArithmetic] (d : Array α) : Checked (Stored α) := do
  forRange 0 d.size (fun i (N : Stored α) => do N.write i i (← fetch d i)) (← zeros d.size d.size)

def ofColumns [SizeArithmetic] (columns : Array (Array α)) : Checked (Stored α) := do
  let ⟨height, _⟩ ← checkRows columns
  let size ← times height columns.size
  forRange 0 columns.size (fun j (N : Stored α) => do
    let column ← fetch columns j
    forRange 0 column.size (fun i N => do N.write i j (← fetch column i)) N)
    ⟨Array.replicate size 0, height, columns.size⟩

def transpose [SizeArithmetic] (M : Stored α) : Checked (Stored α) := do
  forRange 0 M.height (fun r N =>
    forRange 0 M.width (fun c (N : Stored α) => do N.setEntry c r (← M.read r c)) N)
    (← zeros M.width M.height)

end

variable [Scalar α]

def mulVec (M : Stored α) (x : Array α) : Checked (Array α) := do
  let length ← DenseVector.check x
  if M.width = length then
    return (← (← M.rows).mapM fun row => DenseVector.dot row x).toArray
  else .error (.refused (.mismatch (.vector M.width) (.vector length)))

def mul [SizeArithmetic] (M N : Stored α) : Checked (Stored α) :=
  if N.height = M.width then do
    let size ← times M.height N.width
    let product ← forRange 0 M.height (fun i P =>
      forRange 0 N.width (fun j (P : Stored α) => do
        let entry ← forRange 0 M.width (fun p s => do
          return s + (← M.read i p) * (← N.read p j)) 0
        P.write i j entry) P)
      ⟨Array.replicate size 0, M.height, N.width⟩
    ofFlat product.data M.height N.width
  else .error (.refused (.mismatch (.matrix M.width N.width) (.matrix N.height N.width)))

def trace (M : Stored α) : Checked α := do
  let _ ← M.side
  return total (← M.diagonal)

end Stored

end DenseLinear
