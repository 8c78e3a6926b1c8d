import DenseLinear.Dense.Basic
import DenseLinear.Scalar

/-!
# Reading and comparing dense matrices

Entries, rows, columns and the whole of a matrix, with bounds checked, and two tests of equality.
-/

namespace DenseLinear.DenseMatrix

variable {α β : Type}

def get? (A : DenseMatrix α) (i j : Nat) : Option α :=
  if h : i < A.height ∧ j < A.width then some (A.entries ⟨i, h.1⟩ ⟨j, h.2⟩) else none

def entry (A : DenseMatrix α) (i j : Nat) : Except Misuse α :=
  match A.get? i j with
  | some x => .ok x
  | none => .error (.entryOutOfBounds i j A.height A.width)

def set (A : DenseMatrix α) (i j : Nat) (x : α) : Except Misuse (DenseMatrix α) :=
  if h : i < A.height ∧ j < A.width then
    .ok (A.withEntries (A.entries.setEntry ⟨i, h.1⟩ ⟨j, h.2⟩ x))
  else .error (.entryOutOfBounds i j A.height A.width)

def row (A : DenseMatrix α) (i : Nat) : Except Misuse (Array α) :=
  if h : i < A.height then .ok (A.entries.row ⟨i, h⟩).toArray
  else .error (.rowOutOfBounds i A.height)

def column (A : DenseMatrix α) (j : Nat) : Except Misuse (Array α) :=
  if h : j < A.width then .ok (A.entries.col ⟨j, h⟩).toArray else .error (.columnOutOfBounds j)

theorem column_val (A : DenseMatrix α) (j : Fin A.width) :
    A.column j = .ok (A.entries.col j).toArray := by
  simp [column]

def rows (A : DenseMatrix α) : Array (Array α) :=
  Array.ofFn fun i => (A.entries.row i).toArray

def columns (A : DenseMatrix α) : Array (Array α) :=
  Array.ofFn fun j => (A.entries.col j).toArray

def toFlat (A : DenseMatrix α) : Array α := A.rows.flatten

def diagonal (A : DenseMatrix α) : Array α := A.entries.diagonal.toArray

def map (f : α → β) (A : DenseMatrix α) : DenseMatrix β :=
  ⟨A.height, A.width, A.height_pos, A.width_pos, A.entries.map f⟩

def transpose (A : DenseMatrix α) : DenseMatrix α :=
  ⟨A.width, A.height, A.width_pos, A.height_pos, A.entries.transpose⟩

theorem transpose_transpose (A : DenseMatrix α) : A.transpose.transpose = A := by
  obtain ⟨m, n, hm, hn, S⟩ := A
  simp only [transpose, Mat.transpose_transpose]

/-- The matrices have the same size, and `r` holds of each two entries in one place. -/
def all₂ (r : α → β → Bool) (A : DenseMatrix α) (B : DenseMatrix β) : Bool :=
  if h : A.height = B.height ∧ A.width = B.width then
    decide (∀ i j, r (A.entries i j) (B.entries (i.cast h.1) (j.cast h.2)) = true)
  else false

instance [BEq α] : BEq (DenseMatrix α) := ⟨all₂ (· == ·)⟩

def approxEq [Scalar α] (tolerance : α) (A B : DenseMatrix α) : Bool :=
  all₂ (fun x y => decide (Scalar.abs (x - y) < tolerance)) A B

end DenseLinear.DenseMatrix
