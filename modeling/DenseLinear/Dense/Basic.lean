import DenseLinear.Error
import DenseLinear.Mat.Basic

/-!
# Matrices of any size

A dense matrix carries its size, and has at least one row and one column. The ways to build one
from data check it first, and name the first fault they meet.
-/

namespace DenseLinear

structure DenseMatrix (α : Type) where
  height : Nat
  width : Nat
  height_pos : 0 < height
  width_pos : 0 < width
  entries : Mat α height width

/-- The rows form a rectangle: there is one, and all have the same positive length. -/
structure Rectangular {α : Type} (rows : Array (Array α)) (width : Nat) : Prop where
  rows_pos : 0 < rows.size
  width_pos : 0 < width
  size_row : ∀ i : Fin rows.size, rows[i].size = width

def checkRows {α : Type} (rows : Array (Array α)) :
    Except Error { width : Nat // Rectangular rows width } :=
  if hr : 0 < rows.size then
    let width := rows[0].size
    if hw : 0 < width then
      if h : ∀ i : Fin rows.size, rows[i].size = width then .ok ⟨width, hr, hw, h⟩
      else .error (.shape .raggedRows)
    else .error (.shape .emptyRow)
  else .error (.shape .noRows)

def checkSquareRows {α : Type} (rows : Array (Array α)) : Except Error Nat := do
  let ⟨width, _⟩ ← checkRows rows
  if rows.size = width then return width else .error (.shape .notSquare)

namespace DenseMatrix

variable {α : Type}

def ofRows (rows : Array (Array α)) : Except Error (DenseMatrix α) := do
  let ⟨width, h⟩ ← checkRows rows
  return ⟨rows.size, width, h.rows_pos, h.width_pos,
    .ofFn fun i j =>
      have : j < rows[i].size := Nat.lt_of_lt_of_eq j.isLt (h.size_row i).symm
      rows[i][j]⟩

def ofColumns (columns : Array (Array α)) : Except Error (DenseMatrix α) := do
  let ⟨height, h⟩ ← checkRows columns
  return ⟨height, columns.size, h.width_pos, h.rows_pos,
    .ofFn fun i j =>
      have : i < columns[j].size := Nat.lt_of_lt_of_eq i.isLt (h.size_row j).symm
      columns[j][i]⟩

/-- The place of `i`, `j` among `r` rows of `c` entries each. -/
theorem flat_lt {r c : Nat} (i : Fin r) (j : Fin c) : i * c + j < r * c :=
  calc
    i * c + j < i * c + c := by omega
    _ = (i + 1) * c := by rw [Nat.add_mul, Nat.one_mul]
    _ ≤ r * c := Nat.mul_le_mul_right c i.isLt

/-- The matrix with the given entries, row after row. They have to be as many as the sides say,
whether or not a machine word can tell: no other array is a matrix. -/
def ofFlat (data : Array α) (r c : Nat) : Except Error (DenseMatrix α) :=
  if h : 0 < r ∧ 0 < c then
    if hs : r * c = data.size then
      .ok ⟨r, c, h.1, h.2, .ofFn fun i j =>
        have : i * c + j < data.size := hs ▸ flat_lt i j
        data[i * c + j]⟩
    else .error (.shape .entryCount)
  else .error (.shape .zeroSide)

section

variable [Zero α] [One α]

/-- There is no such matrix if the number of its entries is no machine word. An array of what is
left of that number ends in the row that is named then, or before it. -/
def zeros (r c : Nat) : Except Misuse (DenseMatrix α) :=
  if h : 0 < r ∧ 0 < c then
    if r * c < UInt64.size then .ok ⟨r, c, h.1, h.2, .zero r c⟩
    else .error (.rowOutOfBounds (r * c % UInt64.size / c) r)
  else .error .zeroSide

def identity (n : Nat) : Except Misuse (DenseMatrix α) :=
  if h : 0 < n then .ok ⟨n, n, h, h, .identity n⟩ else .error .zeroSide

def ofDiagonal (d : Array α) : Except Misuse (DenseMatrix α) :=
  if h : 0 < d.size then .ok ⟨d.size, d.size, h, h, .ofDiagonal (.ofArray d rfl)⟩
  else .error .zeroSide

end

def ofSquare (A : DenseMatrix α) (B : Mat α A.height A.height) : DenseMatrix α :=
  ⟨A.height, A.height, A.height_pos, A.height_pos, B⟩

def withEntries (A : DenseMatrix α) (B : Mat α A.height A.width) : DenseMatrix α :=
  ⟨A.height, A.width, A.height_pos, A.width_pos, B⟩

def IsSquare (A : DenseMatrix α) : Prop := A.width = A.height

instance (A : DenseMatrix α) : Decidable A.IsSquare := inferInstanceAs (Decidable (_ = _))

def toSquare (A : DenseMatrix α) : Except Error (Mat α A.height A.height) :=
  if h : A.IsSquare then .ok (A.entries.cast rfl h) else .error (.shape .notSquare)

theorem width_eq_of_toSquare {A : DenseMatrix α} {S : Mat α A.height A.height}
    (h : A.toSquare = .ok S) : A.width = A.height := by
  unfold toSquare at h
  split at h
  · assumption
  · cases h

theorem toSquare_mk {n : Nat} (h h' : 0 < n) (S : Mat α n n) :
    (mk n n h h' S).toSquare = .ok S := by
  simp [toSquare, IsSquare]

theorem eq_ofSquare_of_toSquare {A : DenseMatrix α} {S : Mat α A.height A.height}
    (h : A.toSquare = .ok S) : A = A.ofSquare S := by
  obtain ⟨m, n, hm, hn, E⟩ := A
  obtain rfl : n = m := width_eq_of_toSquare h
  obtain rfl : E = S := Except.ok.inj ((toSquare_mk hm hn E).symm.trans h)
  rfl

theorem identity_mk [Zero α] [One α] {n : Nat} (h : 0 < n) :
    (identity n : Except Misuse (DenseMatrix α)) = .ok (mk n n h h (.identity n)) := by
  simp [identity, h]

def size (A : DenseMatrix α) : Size := .matrix A.height A.width

end DenseMatrix

end DenseLinear
