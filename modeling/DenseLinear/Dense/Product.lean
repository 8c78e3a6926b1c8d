import DenseLinear.Dense.Basic
import DenseLinear.Dense.Vector
import DenseLinear.Mat.Product

/-!
# Products of dense matrices
-/

namespace DenseLinear.DenseMatrix

variable {α : Type} [Scalar α]

def mulVec (A : DenseMatrix α) (x : DenseVector α) : Except Error (DenseVector α) := do
  return (A.entries.mulVec (← x.fit A.width)).toArray

theorem mulVec_eq_ok_iff {A : DenseMatrix α} {x y : DenseVector α} :
    A.mulVec x = .ok y ↔ ∃ v : Vec α A.width, x = v.toArray ∧ (A.entries.mulVec v).toArray = y := by
  constructor
  · intro h
    cases hx : x.fit A.width with
    | error e => simp [mulVec, hx, bind, Except.bind] at h
    | ok v =>
      simp only [mulVec, hx, bind, Except.bind, pure, Except.pure, Except.ok.injEq] at h
      exact ⟨v, DenseVector.eq_toArray_of_fit hx, h⟩
  · rintro ⟨v, rfl, rfl⟩
    simp [mulVec, DenseVector.fit_toArray A.width_pos, bind, Except.bind, pure, Except.pure]

theorem mulVec_mk {m n : Nat} (hm : 0 < m) (hn : 0 < n) (S : Mat α m n) (x : Vec α n) :
    (mk m n hm hn S).mulVec x.toArray = .ok (S.mulVec x).toArray :=
  mulVec_eq_ok_iff.mpr ⟨x, rfl, rfl⟩

def mul (A B : DenseMatrix α) : Except Error (DenseMatrix α) :=
  if h : B.height = A.width then
    .ok ⟨A.height, B.width, A.height_pos, B.width_pos, A.entries.mul (B.entries.cast h rfl)⟩
  else .error (.mismatch (.matrix A.width B.width) B.size)

theorem mul_mk {m k n : Nat} {hk' : 0 < k} {hn : 0 < n} (hm : 0 < m) (hk : 0 < k) (S : Mat α m k)
    (T : Mat α k n) :
    (mk m k hm hk S).mul (mk k n hk' hn T) = .ok (mk m n hm hn (S.mul T)) := by
  simp [mul]

/-- Two matrices have a product exactly if their sizes fit. -/
theorem exists_mul_iff {A B : DenseMatrix α} : (∃ P, A.mul B = .ok P) ↔ B.height = A.width := by
  unfold mul
  split <;> simp [*]

def trace (A : DenseMatrix α) : Except Error α := do
  return (← A.toSquare).trace

theorem trace_mk {n : Nat} (h h' : 0 < n) (S : Mat α n n) : (mk n n h h' S).trace = .ok S.trace := by
  rw [trace, toSquare_mk]
  rfl

end DenseLinear.DenseMatrix
