/-!
# Vectors of a fixed length

A vector stores its entries, each evaluated once. Everything else is said of its entries:
`entry_ofFn` reads a vector that was given by a formula, and `Vec.ext` compares two.
-/

namespace DenseLinear

structure Vec (α : Type) (n : Nat) where
  toVector : Vector α n
deriving DecidableEq

namespace Vec

variable {α β : Type} {n : Nat}

def entry (x : Vec α n) (i : Fin n) : α := x.toVector[i]

instance : CoeFun (Vec α n) fun _ => Fin n → α := ⟨entry⟩

def ofFn (f : Fin n → α) : Vec α n := ⟨Vector.ofFn f⟩

@[simp] theorem entry_ofFn (f : Fin n → α) (i : Fin n) : (ofFn f) i = f i := by
  simp [entry, ofFn]

@[ext] theorem ext {x y : Vec α n} (h : ∀ i, x i = y i) : x = y := by
  cases x
  cases y
  congr 1
  apply Vector.ext
  intro i hi
  exact h ⟨i, hi⟩

theorem ofFn_entry (x : Vec α n) : ofFn x.entry = x := by
  ext i
  simp

def ofArray (x : Array α) (h : x.size = n) : Vec α n := ⟨⟨x, h⟩⟩

def toArray (x : Vec α n) : Array α := x.toVector.toArray

def toList (x : Vec α n) : List α := x.toArray.toList

@[simp] theorem size_toArray (x : Vec α n) : x.toArray.size = n := x.toVector.size_toArray

@[simp] theorem toArray_ofArray (x : Array α) (h : x.size = n) : (ofArray x h).toArray = x := rfl

@[simp] theorem ofArray_toArray (x : Vec α n) (h : x.toArray.size = n) :
    ofArray x.toArray h = x := rfl

theorem getElem_toArray (x : Vec α n) (i : Fin n) (h : i.val < x.toArray.size) :
    x.toArray[i.val] = x i := rfl

theorem toArray_inj {x y : Vec α n} : x.toArray = y.toArray ↔ x = y := by
  constructor
  · intro h
    ext i
    rw [← getElem_toArray x i (by simp), ← getElem_toArray y i (by simp)]
    simp only [h]
  · rintro rfl
    rfl

def replicate (n : Nat) (a : α) : Vec α n := ofFn fun _ => a

def map (f : α → β) (x : Vec α n) : Vec β n := ofFn fun i => f (x i)

def set (x : Vec α n) (i : Fin n) (a : α) : Vec α n := ⟨x.toVector.set i a i.isLt⟩

@[simp] theorem replicate_apply (a : α) (i : Fin n) : (replicate n a) i = a := by
  simp [replicate]

@[simp] theorem map_apply (f : α → β) (x : Vec α n) (i : Fin n) : (x.map f) i = f (x i) := by
  simp [map]

theorem set_apply (x : Vec α n) (i j : Fin n) (a : α) :
    (x.set i a) j = if j = i then a else x j := by
  simp only [set, entry, Fin.getElem_fin, Vector.getElem_set, Fin.ext_iff, eq_comm]

end Vec

end DenseLinear
