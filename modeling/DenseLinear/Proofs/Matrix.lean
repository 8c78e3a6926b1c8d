import DenseLinear.Mat.Product
import DenseLinear.Proofs.Exact

/-!
# Stored matrices as matrices over a field

The view `toMatrix` forgets how the entries are stored. Through it products over exact scalars
obey the laws of matrix algebra, which are stated for stored matrices again.
-/

namespace DenseLinear.Mat

variable {α : Type} {m n k l : Nat}

def toMatrix (A : Mat α m n) : Matrix (Fin m) (Fin n) α := Matrix.of A.entry

@[simp] theorem toMatrix_apply (A : Mat α m n) (i : Fin m) (j : Fin n) :
    A.toMatrix i j = A i j := rfl

theorem toMatrix_inj {A B : Mat α m n} : A.toMatrix = B.toMatrix ↔ A = B := by
  constructor
  · intro h
    ext i j
    exact congrFun (congrFun h i) j
  · rintro rfl
    rfl

theorem toMatrix_transpose (A : Mat α m n) : A.transpose.toMatrix = A.toMatrix.transpose := by
  ext i j
  simp

theorem toMatrix_identity [Zero α] [One α] : (identity n : Mat α n n).toMatrix = 1 := by
  ext i j
  simp [Matrix.one_apply]

variable {K : Type} [Field K] [LinearOrder K]

theorem mul_entry (A : Mat K m k) (B : Mat K k n) (i : Fin m) (j : Fin n) :
    (A.mul B) i j = ∑ p, A i p * B p j := by
  simp [sumFrom_eq]

theorem mulVec_entry (A : Mat K m n) (x : Vec K n) (i : Fin m) :
    (A.mulVec x) i = ∑ j, A i j * x j := by
  simp [Vec.dot, sum_eq]

theorem toMatrix_mulVec (A : Mat K m n) (x : Vec K n) :
    A.toMatrix.mulVec x.entry = (A.mulVec x).entry := by
  funext i
  rw [mulVec_entry]
  rfl

theorem toMatrix_mul (A : Mat K m k) (B : Mat K k n) :
    (A.mul B).toMatrix = A.toMatrix * B.toMatrix := by
  ext i j
  rw [toMatrix_apply, mul_entry, Matrix.mul_apply]
  rfl

theorem mul_mul (A : Mat K m k) (B : Mat K k l) (C : Mat K l n) :
    (A.mul B).mul C = A.mul (B.mul C) := by
  apply toMatrix_inj.mp
  simp only [toMatrix_mul, Matrix.mul_assoc]

theorem identity_mul (A : Mat K m n) : (identity m).mul A = A := by
  apply toMatrix_inj.mp
  rw [toMatrix_mul, toMatrix_identity, Matrix.one_mul]

theorem mul_identity (A : Mat K m n) : A.mul (identity n) = A := by
  apply toMatrix_inj.mp
  rw [toMatrix_mul, toMatrix_identity, Matrix.mul_one]

theorem transpose_mul (A : Mat K m k) (B : Mat K k n) :
    (A.mul B).transpose = B.transpose.mul A.transpose := transpose_mul_of_comm mul_comm A B

theorem trace_eq (A : Mat K n n) : A.trace = ∑ i, A i i := sum_eq _

theorem trace_mul_comm (A : Mat K m n) (B : Mat K n m) : (A.mul B).trace = (B.mul A).trace := by
  have h := Matrix.trace_mul_comm A.toMatrix B.toMatrix
  rw [← toMatrix_mul, ← toMatrix_mul] at h
  rw [trace_eq, trace_eq]
  exact h

/-- A left inverse of a square matrix is a right inverse. -/
theorem mul_eq_identity_comm {A B : Mat K n n} :
    A.mul B = identity n ↔ B.mul A = identity n := by
  simp only [← toMatrix_inj, toMatrix_mul, toMatrix_identity]
  exact mul_eq_one_comm

theorem ofDiagonal_mul_apply (d : Vec K m) (A : Mat K m n) (i : Fin m) (j : Fin n) :
    ((ofDiagonal d).mul A) i j = d i * A i j := by
  simp only [mul_entry, ofDiagonal_apply, ite_mul, zero_mul]
  rw [Finset.sum_ite_eq, if_pos (Finset.mem_univ i)]

theorem mul_ofDiagonal_apply (A : Mat K m n) (d : Vec K n) (i : Fin m) (j : Fin n) :
    (A.mul (ofDiagonal d)) i j = A i j * d j := by
  simp only [mul_entry, ofDiagonal_apply, mul_ite, mul_zero]
  rw [Finset.sum_ite_eq', if_pos (Finset.mem_univ j)]

theorem ofDiagonal_mulVec_apply (d v : Vec K n) (i : Fin n) :
    ((ofDiagonal d).mulVec v) i = d i * v i := by
  simp only [mulVec_entry, ofDiagonal_apply, ite_mul, zero_mul]
  rw [Finset.sum_ite_eq, if_pos (Finset.mem_univ i)]

theorem mul_mulVec (A : Mat K m k) (B : Mat K k n) (x : Vec K n) :
    (A.mul B).mulVec x = A.mulVec (B.mulVec x) := by
  ext i
  simp only [mulVec_entry, mul_entry, Finset.sum_mul, Finset.mul_sum, mul_assoc]
  exact Finset.sum_comm

theorem identity_mulVec (x : Vec K n) : (identity n).mulVec x = x := by
  ext i
  rw [mulVec_entry]
  simp

theorem mulVec_zero (A : Mat K m n) : A.mulVec (.replicate n 0) = .replicate m 0 := by
  ext i
  rw [mulVec_entry]
  simp

end DenseLinear.Mat
