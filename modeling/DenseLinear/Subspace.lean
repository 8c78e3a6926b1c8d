import DenseLinear.RowReduction

/-!
# Rank and subspaces

What is read off the reduced form: the leading columns, the rank and the nullity, and bases of the
null space, the column space and the row space.
-/

namespace DenseLinear.Mat

variable {α : Type} [Scalar α] {m n : Nat}

/-- The column of the first significant entry of row `i`. -/
def leadingColumn? (A : Mat α m n) (i : Fin m) : Option (Fin n) :=
  (List.finRange n).find? fun j => decide (Significant (A i j))

/-- The leading columns of the rows that have one, from the top down. -/
def leadingColumns (A : Mat α m n) : List (Fin n) := (List.finRange m).filterMap A.leadingColumn?

def significantRows (A : Mat α m n) : List (Fin m) :=
  (List.finRange m).filter fun i => (List.finRange n).any fun j => decide (Significant (A i j))

def pivotColumns (A : Mat α m n) : List (Fin n) := A.rref.leadingColumns

def rank (A : Mat α m n) : Nat := A.rref.significantRows.length

/-- The number of columns less the rank, as a difference of machine words. -/
def nullity (A : Mat α m n) : UInt64 := .ofNat n - .ofNat A.rank

def FullColumnRank (A : Mat α m n) : Prop := A.rank = n

instance (A : Mat α m n) : Decidable A.FullColumnRank := inferInstanceAs (Decidable (A.rank = n))

/-- The solution of the reduced system `R` whose free variable `j` is `1` and whose other free
variables are `0`. The variable of the `i`-th leading column is read off row `i`. -/
def freeSolution (R : Mat α m n) (leads : List (Fin n)) (j : Fin n) : Vec α n :=
  (leads.zip (List.finRange m)).foldl (fun v p => v.set p.1 (-R p.2 j))
    ((Vec.replicate n 0).set j 1)

/-- One solution for each free column. If there is none, the zero vector alone. -/
def nullSpace (A : Mat α m n) : List (Vec α n) :=
  let R := A.rref
  let leads := R.leadingColumns
  match (List.finRange n).filter (· ∉ leads) with
  | [] => [.replicate n 0]
  | free => free.map (R.freeSolution leads)

def columnSpace (A : Mat α m n) : List (Vec α m) := A.pivotColumns.map A.col

def rowSpace (A : Mat α m n) : List (Vec α n) :=
  let R := A.rref
  R.significantRows.map R.row

/-- A row has a leading column exactly if it has a significant entry. -/
theorem isSome_leadingColumn? (A : Mat α m n) (i : Fin m) :
    (A.leadingColumn? i).isSome = (List.finRange n).any fun j => decide (Significant (A i j)) := by
  rw [Bool.eq_iff_iff]
  simp [leadingColumn?]

theorem length_leadingColumns (A : Mat α m n) :
    A.leadingColumns.length = A.significantRows.length := by
  simp only [leadingColumns, significantRows, ← isSome_leadingColumn?]
  generalize List.finRange m = rows
  induction rows with
  | nil => rfl
  | cons i rows ih =>
    cases h : A.leadingColumn? i <;> simp [h, ih]

theorem length_pivotColumns (A : Mat α m n) : A.pivotColumns.length = A.rank :=
  length_leadingColumns _

theorem rank_le_rows (A : Mat α m n) : A.rank ≤ m := by
  have h := List.length_filter_le
    (fun i => (List.finRange n).any fun j => decide (Significant (A.rref i j))) (List.finRange m)
  rwa [List.length_finRange] at h

end DenseLinear.Mat
