import DenseLinear.Error
import DenseLinear.Vec.Product

/-!
# Vectors of any length

Each operation first checks that its operands are nonempty and of one length, in the order in which
they are given.
-/

namespace DenseLinear

/-- A vector whose length is known only when it is there. -/
abbrev DenseVector (α : Type) := Array α

namespace DenseVector

variable {α : Type}

def check (x : DenseVector α) : Except Error Nat :=
  if 0 < x.size then .ok x.size else .error (.shape .emptyVector)

/-- Reads `x` as a nonempty vector of length `n`. -/
def fit (n : Nat) (x : DenseVector α) : Except Error (Vec α n) := do
  let _ ← x.check
  if h : x.size = n then return .ofArray x h else .error (.mismatch (.vector n) (.vector x.size))

theorem check_toArray {n : Nat} (hn : 0 < n) (v : Vec α n) : check v.toArray = .ok n := by
  rw [check, Vec.size_toArray, if_pos hn]

theorem fit_toArray {n : Nat} (hn : 0 < n) (v : Vec α n) : fit n v.toArray = .ok v := by
  simp [fit, check, hn, bind, Except.bind, pure, Except.pure]

theorem eq_toArray_of_fit {n : Nat} {x : DenseVector α} {v : Vec α n} (h : x.fit n = .ok v) :
    x = v.toArray := by
  simp only [fit, check, bind, Except.bind] at h
  split at h
  · cases h
  · split at h
    · cases h
      rfl
    · cases h

section

variable [Scalar α]

def dot (x y : DenseVector α) : Except Error α := do
  let n ← x.check
  return Vec.dot (← x.fit n) (← y.fit n)

def addScaled (c : α) (x y : DenseVector α) : Except Error (DenseVector α) := do
  let n ← x.check
  return (Vec.addScaled c (← x.fit n) (← y.fit n)).toArray

def scale (c : α) (x : DenseVector α) : Except Error (DenseVector α) := do
  let n ← x.check
  return (Vec.scale c (← x.fit n)).toArray

def cross (x y : DenseVector α) : Except Error (DenseVector α) := do
  let _ ← x.check
  let _ ← y.check
  if h : x.size = 3 ∧ y.size = 3 then return (Vec.cross (.ofArray x h.1) (.ofArray y h.2)).toArray
  else .error (.shape .notThreeDimensional)

/-- The orthogonal projection of `x` onto the line of `y`. That `y` is not negligible is tested
before its length is compared with that of `x`. -/
def projection (x y : DenseVector α) : Except Error (DenseVector α) := do
  let n ← x.check
  let m ← y.check
  let v ← y.fit m
  if Negligible (v.dot v) then .error .zeroVector
  else return (Vec.projection (← x.fit n) (← y.fit n)).toArray

end

def norm [RootScalar α] (x : DenseVector α) : Except Error α := do
  let n ← x.check
  return Vec.norm (← x.fit n)

end DenseVector

end DenseLinear
