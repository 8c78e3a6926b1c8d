import DenseLinear.Dense.Product
import DenseLinear.Determinant
import DenseLinear.Factor.Triangular
import DenseLinear.Inverse

/-!
# Determinants, inverses and systems of equations
-/

namespace DenseLinear

variable {α : Type}

/-- The value, or the error that stands for its absence. -/
def orError {β : Type} (e : Error) : Option β → Except Error β
  | some b => .ok b
  | none => .error e

theorem orError_eq_ok {β : Type} {e : Error} {x : Option β} {b : β} :
    orError e x = .ok b ↔ x = some b := by
  cases x <;> simp [orError]

namespace DenseMatrix

variable [Scalar α]

def det (A : DenseMatrix α) : Traced α α := do
  let S ← A.toSquare
  Traced.report S.eliminationEvents
  return S.det

theorem det_mk {n : Nat} (h h' : 0 < n) (S : Mat α n n) :
    (mk n n h h' S).det.result = .ok S.det := by
  simp only [det, Traced.result_bind, toSquare_mk, Traced.result_lift]
  rfl

def inverse (A : DenseMatrix α) : Except Error (DenseMatrix α) := do
  return A.ofSquare (← orError .singular (← A.toSquare).inverse)

theorem inverse_mk {n : Nat} (h h' : 0 < n) (S : Mat α n n) :
    (mk n n h h' S).inverse = match S.inverse with
      | some T => .ok (mk n n h h' T)
      | none => .error .singular := by
  unfold inverse
  rw [toSquare_mk]
  cases hT : S.inverse with
  | none => simp [orError, hT, bind, Except.bind]
  | some T => simp [orError, hT, bind, Except.bind, pure, Except.pure, ofSquare]

/-- The solution of `A x = b` through the inverse of `A`. -/
def solve (A : DenseMatrix α) (b : DenseVector α) : Except Error (DenseVector α) := do
  let S ← A.toSquare
  let b ← b.fit A.height
  return (← orError .singular (S.solve b)).toArray

theorem solve_mk {n : Nat} (h h' : 0 < n) (S : Mat α n n) (b : Vec α n) :
    (mk n n h h' S).solve b.toArray = match S.solve b with
      | some x => .ok x.toArray
      | none => .error .singular := by
  unfold solve
  rw [toSquare_mk]
  cases hx : S.solve b with
  | none => simp [DenseVector.fit_toArray h, orError, hx, bind, Except.bind]
  | some x => simp [DenseVector.fit_toArray h, orError, hx, bind, Except.bind, pure, Except.pure]

/-- The matrix from coordinates in the columns of `old` to coordinates in those of `new`. -/
def changeOfBasis (old new : DenseMatrix α) : Except Error (DenseMatrix α) := do
  let A ← old.toSquare
  let B ← new.toSquare
  if h : new.height = old.height then
    return old.ofSquare ((← orError .singular (B.cast h h).inverse).mul A)
  else .error (.shape .basesDiffer)

theorem changeOfBasis_mk {n : Nat} (h h' : 0 < n) (S T : Mat α n n) :
    (mk n n h h' S).changeOfBasis (mk n n h h' T) = match T.inverse with
      | some I => .ok (mk n n h h' (I.mul S))
      | none => .error .singular := by
  unfold changeOfBasis
  rw [toSquare_mk, toSquare_mk]
  cases hT : T.inverse with
  | none => simp [orError, hT, bind, Except.bind]
  | some I => simp [orError, hT, bind, Except.bind, pure, Except.pure, ofSquare]

def lu (A : DenseMatrix α) : Except Error (LU α A.height) := do
  (← A.toSquare).lu.mapError fun i : Fin A.height => .zeroPivot i

def solveFactored (A : DenseMatrix α) (f : LU α A.height) (b : DenseVector α) :
    Except Error (DenseVector α) := do
  return (f.solve (← b.fit A.height)).toArray

theorem solveFactored_toArray (A : DenseMatrix α) (f : LU α A.height) (b : Vec α A.height) :
    A.solveFactored f b.toArray = .ok (f.solve b).toArray := by
  simp [solveFactored, DenseVector.fit_toArray A.height_pos, bind, Except.bind, pure, Except.pure]

end DenseMatrix

end DenseLinear
