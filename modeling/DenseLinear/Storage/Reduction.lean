import DenseLinear.Storage.Build

/-!
# Reduction in storage

Row reduction in place, which ends as soon as every row has a pivot, and what is read off its
result.
-/

namespace DenseLinear.Stored

variable {α : Type} [Scalar α]

def pivotRow? (M : Stored α) (cursor c : Nat) : Checked (Option Nat) :=
  (List.range' cursor (M.height - cursor)).findM? fun r => do
    return decide (Significant (← M.entry r c))

def clearColumn (M : Stored α) (k c : Nat) : Checked (Stored α) :=
  forRange 0 M.height (fun r (N : Stored α) =>
    if r = k then .ok N else do N.subRowMultiple r k (← N.entry r c)) M

def pivotOn (M : Stored α) (k r c : Nat) : Checked (Stored α) := do
  let M ← M.swapRows k r
  let M ← M.divRow k (← M.entry k c)
  M.clearColumn k c

/-- Reduces column `c` of a matrix with `cursor` pivots. Leaves the loop with the last pivot. -/
def reduceColumn (c : Nat) (s : Stored α × Nat) : Except (Exit (Stored α)) (Stored α × Nat) := do
  match ← s.1.pivotRow? s.2 c with
  | none => return s
  | some r =>
    let M ← s.1.pivotOn s.2 r c
    if M.height ≤ s.2 + 1 then .error (.answer M) else return (M, s.2 + 1)

def rref (M : Stored α) : Checked (Stored α) :=
  Exit.close (fun s => .ok s.1) (forRange 0 M.width reduceColumn (M, 0))

def leadingColumns (M : Stored α) : Checked (List Nat) := do
  return (← M.rows).filterMap fun row => row.findIdx? fun x => decide (Significant x)

def pivotColumns (M : Stored α) : Checked (List Nat) := do (← M.rref).leadingColumns

def significantRows (M : Stored α) : Checked (List (Array α)) := do
  return (← M.rows).filter fun row => row.any fun x => decide (Significant x)

def rank (M : Stored α) : Checked Nat := do
  return (← (← M.rref).significantRows).length

/-- The solution whose free variable `j` is `1`, read off the reduced matrix `R`. -/
def freeSolution (R : Stored α) (width : Nat) (leads : List Nat) (j : Nat) : Checked (Array α) := do
  leads.zipIdx.foldlM (fun v p => do store v p.1 (-(← R.entry p.2 j)))
    (← store (Array.replicate width 0) j 1)

def nullSpace (M : Stored α) : Checked (List (Array α)) := do
  let R ← M.rref
  let leads ← R.leadingColumns
  let basis ← ((List.range M.width).filter fun j => !leads.contains j).mapM
    (R.freeSolution M.width leads)
  return if basis.isEmpty then [Array.replicate M.width 0] else basis

def columnSpace (M : Stored α) : Checked (List (Array α)) := do
  (← (← M.rref).leadingColumns).mapM M.column

def rowSpace (M : Stored α) : Checked (List (Array α)) := do (← M.rref).significantRows

end DenseLinear.Stored
