import DenseLinear.Mat.Product
import DenseLinear.Steps

/-!
# Orthogonal factors

Classical Gram–Schmidt orthonormalization of the columns of a matrix: the columns of `q` are
orthonormal, `r` is upper triangular, and their product is the matrix.
-/

namespace DenseLinear

structure QR (α : Type) (m n : Nat) where
  q : Mat α m n
  r : Mat α n n

variable {α : Type} [RootScalar α] {m n : Nat}

namespace QR

/-- The components of `a` along the columns before `i`. -/
def coefficients (q : Mat α m n) (i : Fin n) (a : Vec α m) : Vec α n :=
  .ofFn fun j => if j < i then (q.col j).dot a else 0

/-- Takes the multiples `coeff j` of the columns `j` before `i` from `v`, in order. -/
def remainder (q : Mat α m n) (i : Fin n) (coeff : Vec α n) (v : Vec α m) : Vec α m :=
  Fin.foldl i (fun v k =>
    let j := before i k
    Vec.addScaled (-coeff j) (q.col j) v) v

/-- Takes from column `i` its components along the columns before it and scales the rest to length
one. Refused at `i` if that rest is shorter than the tolerance. -/
def step (A : Mat α m n) (i : Fin n) (f : QR α m n) : Except (Fin n) (QR α m n) :=
  let coeff := coefficients f.q i (A.col i)
  let v := remainder f.q i coeff (A.col i)
  let length := v.norm
  if length < Scalar.eps then .error i
  else .ok
    ⟨f.q.setCol i fun r => v r / length,
      f.r.setCol i fun j => if j = i then length else coeff j⟩

/-- The factors after the first `k` columns; the rest of both is zero. -/
def upTo (A : Mat α m n) (k : Nat) (h : k ≤ n) : Except (Fin n) (QR α m n) :=
  tryAfterSteps (step A) ⟨.zero m n, .zero n n⟩ k h

end QR

/-- The orthogonal factors, or the first column that depends on the ones before it. -/
def Mat.qr (A : Mat α m n) : Except (Fin n) (QR α m n) := QR.upTo A n (Nat.le_refl n)

end DenseLinear
