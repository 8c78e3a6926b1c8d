import DenseLinear.Dense.Product
import DenseLinear.Proofs.Matrix

/-!
# Laws of products

Products of dense matrices over exact scalars obey the laws of matrix algebra. Each law comes with
the products that it is about: they exist as soon as the sizes fit.
-/

namespace DenseLinear.DenseMatrix

variable {K : Type} [Field K] [LinearOrder K] {A B C : DenseMatrix K}

theorem exists_mul_mul (h : B.height = A.width) (h' : C.height = B.width) :
    ∃ P Q R, A.mul B = .ok P ∧ B.mul C = .ok Q ∧ P.mul C = .ok R ∧ A.mul Q = .ok R := by
  obtain ⟨m, k, hm, hk, S⟩ := A
  obtain ⟨_, l, hk', hl, T⟩ := B
  obtain ⟨_, n, hl', hn, U⟩ := C
  cases h
  cases h'
  refine ⟨_, _, _, mul_mk hm hk S T, mul_mk hk' hl T U, mul_mk hm hl _ U, ?_⟩
  rw [mul_mk, Mat.mul_mul]

/-- A product acts on a vector as its factors do, the right one first. -/
theorem exists_mul_mulVec {x : DenseVector K} (h : B.height = A.width) (hx : x.size = B.width) :
    ∃ P y z, A.mul B = .ok P ∧ B.mulVec x = .ok y ∧ P.mulVec x = .ok z ∧ A.mulVec y = .ok z := by
  obtain ⟨m, k, hm, hk, S⟩ := A
  obtain ⟨_, n, hk', hn, T⟩ := B
  cases h
  obtain ⟨v, rfl⟩ : ∃ v : Vec K n, x = v.toArray := ⟨.ofArray x hx, rfl⟩
  refine ⟨_, _, _, mul_mk hm hk S T, mulVec_mk hk' hn T v, mulVec_mk hm hn _ v, ?_⟩
  rw [mulVec_mk, Mat.mul_mulVec]

theorem exists_mul_identity (A : DenseMatrix K) :
    ∃ I, identity A.width = .ok I ∧ A.mul I = .ok A := by
  obtain ⟨m, n, hm, hn, S⟩ := A
  refine ⟨_, identity_mk hn, ?_⟩
  rw [mul_mk, Mat.mul_identity]

theorem exists_identity_mul (A : DenseMatrix K) :
    ∃ I, identity A.height = .ok I ∧ I.mul A = .ok A := by
  obtain ⟨m, n, hm, hn, S⟩ := A
  refine ⟨_, identity_mk hm, ?_⟩
  rw [mul_mk, Mat.identity_mul]

/-- The products of two matrices in either order are square together, of different sides if the
factors are not square. -/
theorem exists_trace_mul_comm (h : B.height = A.width) (h' : B.width = A.height) :
    ∃ P Q t, A.mul B = .ok P ∧ B.mul A = .ok Q ∧ P.trace = .ok t ∧ Q.trace = .ok t := by
  obtain ⟨m, n, hm, hn, S⟩ := A
  obtain ⟨_, _, hn', hm', T⟩ := B
  cases h
  cases h'
  refine ⟨_, _, _, mul_mk hm hn S T, mul_mk hn' hm' T S, trace_mk hm hm' _, ?_⟩
  rw [trace_mk, Mat.trace_mul_comm]

/-- Products are associative and act on vectors one after the other. The identity matrices of both
sides are neutral, and the trace of a square product does not depend on the order of its factors. -/
theorem product_laws (A : DenseMatrix K) :
    (∀ B C : DenseMatrix K, B.height = A.width → C.height = B.width →
      ∃ P Q R, A.mul B = .ok P ∧ B.mul C = .ok Q ∧ P.mul C = .ok R ∧ A.mul Q = .ok R) ∧
    (∀ (B : DenseMatrix K) (x : DenseVector K), B.height = A.width → x.size = B.width →
      ∃ P y z, A.mul B = .ok P ∧ B.mulVec x = .ok y ∧ P.mulVec x = .ok z ∧ A.mulVec y = .ok z) ∧
    (∃ I, identity A.width = .ok I ∧ A.mul I = .ok A) ∧
    (∃ I, identity A.height = .ok I ∧ I.mul A = .ok A) ∧
    ∀ B : DenseMatrix K, B.height = A.width → B.width = A.height →
      ∃ P Q t, A.mul B = .ok P ∧ B.mul A = .ok Q ∧ P.trace = .ok t ∧ Q.trace = .ok t :=
  ⟨fun _ _ => exists_mul_mul, fun _ _ => exists_mul_mulVec, exists_mul_identity A,
    exists_identity_mul A, fun _ => exists_trace_mul_comm⟩

def wide : Mat ℚ 2 3 := .ofFn ![![1, -2, 1 / 3], ![0, 5, 7]]

def high : Mat ℚ 3 2 := .ofFn ![![2, 1], ![-1, 4], ![6, 1 / 2]]

theorem product_laws_wide_high :
    let A : DenseMatrix ℚ := ⟨2, 3, Nat.two_pos, Nat.succ_pos 2, wide⟩
    let B : DenseMatrix ℚ := ⟨3, 2, Nat.succ_pos 2, Nat.two_pos, high⟩
    B.height = A.width ∧ B.width = A.height ∧ (#[3, -1] : DenseVector ℚ).size = B.width ∧
    (∃ P Q R, A.mul B = .ok P ∧ B.mul A = .ok Q ∧ P.mul A = .ok R ∧ A.mul Q = .ok R) ∧
    (∃ P y z, A.mul B = .ok P ∧ B.mulVec #[3, -1] = .ok y ∧ P.mulVec #[3, -1] = .ok z ∧
      A.mulVec y = .ok z) ∧
    ∃ P Q t, A.mul B = .ok P ∧ B.mul A = .ok Q ∧ P.trace = .ok t ∧ Q.trace = .ok t := by
  intro A B
  obtain ⟨hassoc, hvec, _, _, htrace⟩ := product_laws A
  exact ⟨rfl, rfl, rfl, hassoc B A rfl rfl, hvec B _ rfl rfl, htrace B rfl rfl⟩

end DenseLinear.DenseMatrix
