/-!
# Errors

Why an operation has no answer. An error is a cause with its data; the wording is in
`Error.message` alone. `Misuse` is kept apart: it is a call outside an operation's domain, which no
operation on well-formed operands makes by itself.
-/

namespace DenseLinear

inductive Size where
  | vector (length : Nat)
  | matrix (rows columns : Nat)
deriving Repr, DecidableEq

/-- Why an operand is malformed by itself, or unfit for the operation. -/
inductive ShapeError where
  | noRows
  | emptyRow
  | raggedRows
  | notSquare
  | emptyVector
  | zeroSide
  | entryCount
  | notThreeDimensional
  | basesDiffer
deriving Repr, DecidableEq

inductive Error where
  | shape (cause : ShapeError)
  /-- The operands are well formed, but their sizes do not fit each other. -/
  | mismatch (expected actual : Size)
  /-- Elimination without row exchanges met a negligible pivot. -/
  | zeroPivot (index : Nat)
  /-- The column depends on the ones before it. -/
  | rankDeficient (column : Nat)
  | singular
  | zeroVector
  /-- The eigenvectors found are not as many as the matrix has columns. -/
  | notDiagonalizable (found required : Nat)
deriving Repr, DecidableEq

/-- A call outside the domain of an operation. -/
inductive Misuse where
  | zeroSide
  | rowOutOfBounds (row rows : Nat)
  | columnOutOfBounds (column : Nat)
  | entryOutOfBounds (row column rows columns : Nat)
deriving Repr, DecidableEq

def Size.text : Size → String
  | vector n => s!"[{n}]"
  | matrix r c => s!"[{r}, {c}]"

def ShapeError.reason : ShapeError → String
  | noRows => "matrix cannot be empty"
  | emptyRow => "matrix cannot have empty rows"
  | raggedRows => "matrix must have consistent row lengths"
  | notSquare => "matrix must be square"
  | emptyVector => "vector cannot be empty"
  | zeroSide => "matrix must have at least one row and one column"
  | entryCount => "shape product does not match data length"
  | notThreeDimensional => "cross product requires 3-dimensional vectors"
  | basesDiffer => "bases must have the same dimension"

def Error.message : Error → String
  | shape cause => "shape error: " ++ cause.reason
  | mismatch expected actual =>
    "dimension mismatch: expected " ++ expected.text ++ ", got " ++ actual.text
  | zeroPivot index =>
    s!"zero pivot at position {index}: matrix requires pivoting for LU decomposition"
  | rankDeficient column =>
    s!"matrix is rank deficient: column {column} is linearly dependent"
  | singular => "singular matrix"
  | zeroVector => "cannot project onto the zero vector"
  | notDiagonalizable found required =>
    s!"matrix is not diagonalizable: found {found} eigenvectors, need {required}"

def Misuse.message : Misuse → String
  | zeroSide => "matrix dimensions must be non-zero"
  | rowOutOfBounds row rows => s!"row index {row} out of bounds for {rows} rows"
  | columnOutOfBounds column => s!"column index {column} out of bounds"
  | entryOutOfBounds row column rows columns =>
    s!"index ({row}, {column}) out of bounds for {rows}x{columns} matrix"

end DenseLinear
