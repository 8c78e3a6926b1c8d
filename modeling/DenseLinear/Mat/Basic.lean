import DenseLinear.Vec.Basic

/-!
# Matrices of a fixed size

A matrix is stored row by row, each entry evaluated once. Everything else is said of its entries:
`entry_ofFn` reads a matrix that was given by a formula, and `Mat.ext` compares two.
-/

namespace DenseLinear

structure Mat (α : Type) (m n : Nat) where
  rows : Vec (Vec α n) m
deriving DecidableEq

namespace Mat

variable {α β : Type} {m n k : Nat}

def entry (A : Mat α m n) (i : Fin m) (j : Fin n) : α := A.rows i j

instance : CoeFun (Mat α m n) fun _ => Fin m → Fin n → α := ⟨entry⟩

def ofFn (f : Fin m → Fin n → α) : Mat α m n := ⟨.ofFn fun i => .ofFn (f i)⟩

@[simp] theorem entry_ofFn (f : Fin m → Fin n → α) (i : Fin m) (j : Fin n) :
    (ofFn f) i j = f i j := by
  simp [entry, ofFn]

@[ext] theorem ext {A B : Mat α m n} (h : ∀ i j, A i j = B i j) : A = B := by
  cases A
  cases B
  congr 1
  ext i j
  exact h i j

theorem ofFn_entry (A : Mat α m n) : ofFn A.entry = A := by
  ext i j
  simp

def row (A : Mat α m n) (i : Fin m) : Vec α n := A.rows i

def col (A : Mat α m n) (j : Fin n) : Vec α m := .ofFn fun i => A i j

@[simp] theorem row_apply (A : Mat α m n) (i : Fin m) (j : Fin n) : (A.row i) j = A i j := rfl

@[simp] theorem col_apply (A : Mat α m n) (i : Fin m) (j : Fin n) : (A.col j) i = A i j := by
  simp [col]

def map (f : α → β) (A : Mat α m n) : Mat β m n := ofFn fun i j => f (A i j)

def transpose (A : Mat α m n) : Mat α n m := ofFn fun i j => A j i

def ofCols (cols : Vec (Vec α m) n) : Mat α m n := ofFn fun i j => cols j i

/-- The same matrix with its size written another way. -/
def cast {m' n' : Nat} (hm : m = m') (hn : n = n') (A : Mat α m n) : Mat α m' n' :=
  ofFn fun i j => A (i.cast hm.symm) (j.cast hn.symm)

def setRow (A : Mat α m n) (i : Fin m) (f : Fin n → α) : Mat α m n :=
  ofFn fun r c => if r = i then f c else A r c

def setCol (A : Mat α m n) (j : Fin n) (f : Fin m → α) : Mat α m n :=
  ofFn fun r c => if c = j then f r else A r c

def setEntry (A : Mat α m n) (i : Fin m) (j : Fin n) (x : α) : Mat α m n :=
  ofFn fun r c => if r = i ∧ c = j then x else A r c

/-- The entries at `i`, `i`, as far as the shorter side reaches. -/
def diagonal (A : Mat α m n) : Vec α (min m n) :=
  .ofFn fun i => A ⟨i, by omega⟩ ⟨i, by omega⟩

section

variable [Zero α] [One α]

def zero (m n : Nat) : Mat α m n := ofFn fun _ _ => 0

def ofDiagonal (d : Vec α n) : Mat α n n := ofFn fun i j => if i = j then d i else 0

def identity (n : Nat) : Mat α n n := ofFn fun i j => if i = j then 1 else 0

end

@[simp] theorem map_apply (f : α → β) (A : Mat α m n) (i : Fin m) (j : Fin n) :
    (A.map f) i j = f (A i j) := by
  simp [map]

@[simp] theorem transpose_apply (A : Mat α m n) (i : Fin n) (j : Fin m) :
    A.transpose i j = A j i := by
  simp [transpose]

@[simp] theorem ofCols_apply (cols : Vec (Vec α m) n) (i : Fin m) (j : Fin n) :
    (ofCols cols) i j = cols j i := by
  simp [ofCols]

@[simp] theorem cast_apply {m' n' : Nat} (hm : m = m') (hn : n = n') (A : Mat α m n)
    (i : Fin m') (j : Fin n') : (A.cast hm hn) i j = A (i.cast hm.symm) (j.cast hn.symm) := by
  simp [cast]

@[simp] theorem cast_rfl (A : Mat α m n) : A.cast rfl rfl = A := by
  ext i j
  simp

@[simp] theorem setRow_apply (A : Mat α m n) (i r : Fin m) (f : Fin n → α) (c : Fin n) :
    (A.setRow i f) r c = if r = i then f c else A r c := by
  simp [setRow]

@[simp] theorem setCol_apply (A : Mat α m n) (j c : Fin n) (f : Fin m → α) (r : Fin m) :
    (A.setCol j f) r c = if c = j then f r else A r c := by
  simp [setCol]

@[simp] theorem setEntry_apply (A : Mat α m n) (i r : Fin m) (j c : Fin n) (x : α) :
    (A.setEntry i j x) r c = if r = i ∧ c = j then x else A r c := by
  simp [setEntry]

@[simp] theorem zero_apply [Zero α] (i : Fin m) (j : Fin n) : (zero m n : Mat α m n) i j = 0 := by
  simp [zero]

@[simp] theorem ofDiagonal_apply [Zero α] (d : Vec α n) (i j : Fin n) :
    (ofDiagonal d) i j = if i = j then d i else 0 := by
  simp [ofDiagonal]

@[simp] theorem identity_apply [Zero α] [One α] (i j : Fin n) :
    (identity n : Mat α n n) i j = if i = j then 1 else 0 := by
  simp [identity]

theorem transpose_transpose (A : Mat α m n) : A.transpose.transpose = A := by
  ext i j
  simp

end Mat

end DenseLinear
