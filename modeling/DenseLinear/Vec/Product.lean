import DenseLinear.Scalar
import DenseLinear.Vec.Basic

/-!
# Inner products and lengths

The order of the additions is part of each definition, as rounded addition is not associative.
-/

namespace DenseLinear.Vec

variable {α : Type} {n : Nat}

section

variable [Scalar α]

def dot (x y : Vec α n) : α := sum fun i => x i * y i

def addScaled (c : α) (x y : Vec α n) : Vec α n := ofFn fun i => y i + c * x i

def scale (c : α) (x : Vec α n) : Vec α n := ofFn fun i => x i * c

/-- The determinant of the rows `a b` and `c d`. -/
def det₂ (a b c d : α) : α := a * d - b * c

/-- Each coordinate is a signed determinant of the other two. -/
def cross (x y : Vec α 3) : Vec α 3 :=
  ofFn fun
    | 0 => det₂ (x 1) (x 2) (y 1) (y 2)
    | 1 => -det₂ (x 0) (x 2) (y 0) (y 2)
    | 2 => det₂ (x 0) (x 1) (y 0) (y 1)

def projection (x y : Vec α n) : Vec α n := scale (dot x y / dot y y) y

@[simp] theorem addScaled_apply (c : α) (x y : Vec α n) (i : Fin n) :
    (addScaled c x y) i = y i + c * x i := by
  simp [addScaled]

@[simp] theorem scale_apply (c : α) (x : Vec α n) (i : Fin n) : (scale c x) i = x i * c := by
  simp [scale]

end

def norm [RootScalar α] (x : Vec α n) : α := RootScalar.sqrt (dot x x)

end DenseLinear.Vec
