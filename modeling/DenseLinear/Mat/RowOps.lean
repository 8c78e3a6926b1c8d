import DenseLinear.Mat.Basic

/-!
# Row operations

Exchanging two rows, dividing a row, and taking multiples of one row from others. Each has one
entrywise formula; entries outside the rows it names stay as they are, whatever their values.
-/

namespace DenseLinear.Mat

variable {α : Type} {m n : Nat}

def swapRows (A : Mat α m n) (a b : Fin m) : Mat α m n :=
  ofFn fun i j => if i = a then A b j else if i = b then A a j else A i j

def divRow [Div α] (A : Mat α m n) (i : Fin m) (d : α) : Mat α m n :=
  ofFn fun r j => if r = i then A r j / d else A r j

/-- Takes `factor r` times row `source` from every row `r` among the targets. -/
def eliminate [Sub α] [Mul α] (A : Mat α m n) (source : Fin m) (target : Fin m → Prop)
    [DecidablePred target] (factor : Fin m → α) : Mat α m n :=
  ofFn fun r j => if target r then A r j - factor r * A source j else A r j

@[simp] theorem swapRows_apply (A : Mat α m n) (a b i : Fin m) (j : Fin n) :
    (A.swapRows a b) i j = if i = a then A b j else if i = b then A a j else A i j := by
  simp [swapRows]

theorem swapRows_apply_left (A : Mat α m n) (a b : Fin m) (j : Fin n) :
    (A.swapRows a b) a j = A b j := by
  simp

@[simp] theorem swapRows_self (A : Mat α m n) (a : Fin m) : A.swapRows a a = A := by
  ext i j
  by_cases h : i = a <;> simp [h]

@[simp] theorem divRow_apply [Div α] (A : Mat α m n) (i r : Fin m) (d : α) (j : Fin n) :
    (A.divRow i d) r j = if r = i then A r j / d else A r j := by
  simp [divRow]

@[simp] theorem eliminate_apply [Sub α] [Mul α] (A : Mat α m n) (source : Fin m)
    (target : Fin m → Prop) [DecidablePred target] (factor : Fin m → α) (r : Fin m) (j : Fin n) :
    (A.eliminate source target factor) r j =
      if target r then A r j - factor r * A source j else A r j := by
  simp [eliminate]

end DenseLinear.Mat
