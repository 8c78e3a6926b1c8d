import DenseLinear.Dense.Basic
import DenseLinear.Storage.Checked

/-!
# Access to stored matrices

A matrix in storage is one array with the entries row after row, and two sides that nothing ties to
the array. Every access computes a place and is checked against the array. Row operations work in
place.
-/

namespace DenseLinear

structure Stored (α : Type) where
  data : Array α
  height : Nat
  width : Nat

variable {α : Type}

def fetch (x : Array α) (p : Nat) : Checked α :=
  if h : p < x.size then .ok x[p] else .error (.fault (.index p x.size))

def store (x : Array α) (p : Nat) (a : α) : Checked (Array α) :=
  if h : p < x.size then .ok (x.set p a) else .error (.fault (.index p x.size))

def slice (x : Array α) (start stop : Nat) : Checked (Array α) :=
  if start ≤ stop ∧ stop ≤ x.size then .ok (x.extract start stop)
  else .error (.fault (.range start stop x.size))

def swapAt (x : Array α) (p q : Nat) : Checked (Array α) := do
  let a ← fetch x p
  let b ← fetch x q
  store (← store x p b) q a

namespace Stored

variable (M : Stored α)

def read (i j : Nat) : Checked α := fetch M.data (i * M.width + j)

def write (i j : Nat) (a : α) : Checked (Stored α) := do
  return { M with data := ← store M.data (i * M.width + j) a }

/-- The entry at `i`, `j`, which have to lie within the sides. -/
def entry (i j : Nat) : Checked α :=
  if i < M.height ∧ j < M.width then M.read i j
  else .error (.fault (.misuse (.entryOutOfBounds i j M.height M.width)))

def setEntry (i j : Nat) (a : α) : Checked (Stored α) :=
  if i < M.height ∧ j < M.width then M.write i j a
  else .error (.fault (.misuse (.entryOutOfBounds i j M.height M.width)))

def row (i : Nat) : Checked (Array α) := slice M.data (i * M.width) (i * M.width + M.width)

def column (j : Nat) : Checked (Array α) :=
  if j < M.width then build M.height fun i => M.read i j
  else .error (.fault (.misuse (.columnOutOfBounds j)))

/-- The array cut into pieces of the length of a row. -/
def rows : Checked (List (Array α)) :=
  if M.width = 0 then .error (.fault .emptyChunks)
  else .ok ((List.range (M.data.size / M.width)).map fun i =>
    M.data.extract (i * M.width) (i * M.width + M.width))

def columns : Checked (Array (Array α)) := build M.width M.column

def diagonal : Checked (Array α) := build (min M.height M.width) fun i => M.read i i

def side : Checked Nat :=
  if M.height = M.width then .ok M.height else .error (.refused (.shape .notSquare))

def swapRows (a b : Nat) : Checked (Stored α) :=
  if a = b then .ok M
  else forRange 0 M.width (fun j (N : Stored α) => do
    return { N with data := ← swapAt N.data (a * N.width + j) (b * N.width + j) }) M

def divRow [Div α] (i : Nat) (d : α) : Checked (Stored α) := do
  let _ ← M.row i
  forRange 0 M.width (fun j (N : Stored α) => do N.write i j ((← N.read i j) / d)) M

/-- Takes `factor` times row `source` from row `target`. -/
def subRowMultiple [Sub α] [Mul α] (target source : Nat) (factor : α) : Checked (Stored α) :=
  forRange 0 M.width (fun j (N : Stored α) => do
    let s ← N.read source j
    N.write target j ((← N.read target j) - factor * s)) M

/-- Overwrites row `i` with `x` as far as column `k`, if `x` has that length. -/
def setRowStart (i k : Nat) (x : Array α) : Checked (Stored α) := do
  let _ ← slice (← M.row i) 0 k
  if x.size = k then
    forRange 0 k (fun j (N : Stored α) => do N.write i j (← fetch x j)) M
  else .error (.fault (.lengths k x.size))

end Stored

end DenseLinear
