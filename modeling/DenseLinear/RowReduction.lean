import DenseLinear.Event
import DenseLinear.Mat.RowOps
import DenseLinear.Scalar
import DenseLinear.Steps

/-!
# Row reduction

Gauss–Jordan reduction. Columns are taken from left to right; the pivot of a column is its first
significant entry at or below the cursor, which is the number of pivots found so far. The pivot's
row is moved to the cursor and divided by the pivot, and the column is cleared in all other rows.
-/

namespace DenseLinear

/-- A matrix under reduction, and the column and row of each pivot in the order they were found.
The row is the one the pivot was found in, before the exchange. -/
structure Reduction (α : Type) (m n : Nat) where
  matrix : Mat α m n
  pivots : List (Fin n × Fin m)

namespace Reduction

variable {α : Type} {m n : Nat}

/-- The row that the next pivot goes to. -/
def cursor (s : Reduction α m n) : Nat := s.pivots.length

def events (s : Reduction α m n) : List (Event α) :=
  s.pivots.map fun p => .pivot p.1 p.2

end Reduction

namespace Mat

variable {α : Type} [Scalar α] {m n : Nat}

/-- The first row from `cursor` on with a significant entry in column `c`. -/
def pivotRow? (A : Mat α m n) (cursor : Nat) (c : Fin n) : Option (Fin m) :=
  (List.finRange m).find? fun r => decide (cursor ≤ r.val ∧ Significant (A r c))

/-- Moves row `r` to `k`, divides it by its entry in column `c`, and clears the column elsewhere. -/
def pivotOn (A : Mat α m n) (k r : Fin m) (c : Fin n) : Mat α m n :=
  let B := A.swapRows k r
  let C := B.divRow k (B k c)
  C.eliminate k (· ≠ k) fun i => C i c

def reduceColumn (c : Fin n) (s : Reduction α m n) : Reduction α m n :=
  if h : s.cursor < m then
    match s.matrix.pivotRow? s.cursor c with
    | some r => ⟨s.matrix.pivotOn ⟨s.cursor, h⟩ r c, s.pivots ++ [(c, r)]⟩
    | none => s
  else s

def reductionUpTo (A : Mat α m n) (k : Nat) (h : k ≤ n) : Reduction α m n :=
  afterSteps reduceColumn ⟨A, []⟩ k h

def reduction (A : Mat α m n) : Reduction α m n := A.reductionUpTo n (Nat.le_refl n)

def rref (A : Mat α m n) : Mat α m n := A.reduction.matrix

theorem pivotRow?_eq_some {A : Mat α m n} {cursor : Nat} {c : Fin n} {r : Fin m}
    (h : A.pivotRow? cursor c = some r) : cursor ≤ r ∧ Significant (A r c) := by
  simpa using List.find?_some h

theorem pivotRow?_eq_none_iff {A : Mat α m n} {cursor : Nat} {c : Fin n} :
    A.pivotRow? cursor c = none ↔ ∀ r : Fin m, cursor ≤ r → ¬Significant (A r c) := by
  simp [pivotRow?]

/-- A column without a significant entry from the cursor on is skipped; any other one pivots on a
row from the cursor on. -/
theorem reduceColumn_cases (c : Fin n) (s : Reduction α m n) :
    (reduceColumn c s = s ∧ ∀ r : Fin m, s.cursor ≤ r → ¬Significant (s.matrix r c)) ∨
      ∃ (h : s.cursor < m) (r : Fin m), s.cursor ≤ r ∧ Significant (s.matrix r c) ∧
        reduceColumn c s = ⟨s.matrix.pivotOn ⟨s.cursor, h⟩ r c, s.pivots ++ [(c, r)]⟩ := by
  by_cases h : s.cursor < m
  · cases hr : s.matrix.pivotRow? s.cursor c with
    | none =>
      refine Or.inl ⟨?_, pivotRow?_eq_none_iff.1 hr⟩
      simp [reduceColumn, h, hr]
    | some r =>
      obtain ⟨hk, hs⟩ := pivotRow?_eq_some hr
      refine Or.inr ⟨h, r, hk, hs, ?_⟩
      simp [reduceColumn, h, hr]
  · refine Or.inl ⟨by simp [reduceColumn, h], ?_⟩
    intro r hr
    exact absurd (Nat.lt_of_le_of_lt hr r.isLt) h

/-- The entries after a pivot step. -/
theorem pivotOn_apply (A : Mat α m n) (k r : Fin m) (c : Fin n) (i : Fin m) (j : Fin n) :
    (A.pivotOn k r c) i j =
      if i = k then A r j / A r c
      else (A.swapRows k r) i j - (A.swapRows k r) i c * (A r j / A r c) := by
  by_cases h : i = k <;> simp [pivotOn, h]

end Mat

end DenseLinear
