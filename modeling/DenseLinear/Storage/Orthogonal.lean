import DenseLinear.Storage.Build

/-!
# Orthogonal factors in storage

The finished columns of the first factor are kept as vectors until the end, and the coefficients go
into the second factor as they are found.
-/

namespace DenseLinear.Stored

variable {α : Type} [RootScalar α]

/-- Takes from the vector its component along column `j` of `q`, which goes into column `i` of the
second factor. -/
def orthogonalStep (q : Array (Array α)) (a : Array α) (i j : Nat) (s : Array α × Stored α) :
    Checked (Array α × Stored α) := do
  let column ← fetch q j
  let coeff ← DenseVector.dot column a
  let R ← s.2.setEntry j i coeff
  return (← DenseVector.addScaled (-coeff) column s.1, R)

/-- Takes from column `i` its components along the columns before and scales the rest to length
one. -/
def qrStep (columns : Array (Array α)) (i : Nat) (s : Array (Array α) × Stored α) :
    Checked (Array (Array α) × Stored α) := do
  let a ← fetch columns i
  let t ← forRange 0 s.1.size (orthogonalStep s.1 a i) (a, s.2)
  let length ← DenseVector.norm t.1
  if length < Scalar.eps then .error (.refused (.rankDeficient i))
  else
    let R ← t.2.setEntry i i length
    return (s.1.push (t.1.map (· / length)), R)

/-- The orthogonal factors. That the first has the size of the matrix is checked at the end. -/
def qr [SizeArithmetic] (M : Stored α) : Checked (Stored α × Stored α) := do
  let columns ← M.columns
  let s ← forRange 0 columns.size (qrStep columns) (#[], ← zeros M.width M.width)
  let Q ← ofColumns s.1
  if Q.height = M.height ∧ Q.width = M.width then return (Q, s.2)
  else .error (.fault (.lengths (M.height * M.width) (Q.height * Q.width)))

end DenseLinear.Stored
