import DenseLinear.Dense.Access
import DenseLinear.Dense.Product
import DenseLinear.Proofs.MachineNumbers

/-!
# Products in rounded arithmetic

Rounded sums depend on the order of their terms and on where they start. The product of two matrices
adds the terms of an entry to `0`, and the product with a vector adds them to `-0`. These totals stay
zeros of opposite signs until a term other than `-0` is met, and are equal from there on. The product
of the transposes has the same terms in the same order, with their factors exchanged. So it is the
transpose of the product by no other law than that factors commute.
-/

namespace DenseLinear

namespace Binary64

def OppositeZeros (x y : Float) : Prop := (x = 0 ∧ y = -0) ∨ (x = -0 ∧ y = 0)

/-- The bits are the same, or neither is a number, or both are zeros, of opposite signs. -/
def Agree (x y : Float) : Prop :=
  x.toBits = y.toBits ∨ (x.isNaN = true ∧ y.isNaN = true) ∨ OppositeZeros x y

/-- What becomes of totals that start from the two zeros and to which the same terms are added. -/
inductive Totals {n : Nat} (terms : Fin n → Float) : Float → Float → Prop where
  | zeros (h : ∀ i, terms i = -0) : Totals terms 0 (-0)
  | equal (i : Fin n) (h : terms i ≠ -0) (s : Float) : Totals terms s s

variable {n : Nat}

theorem Totals.step {terms : Fin (n + 1) → Float} {s t : Float}
    (h : Totals (fun i => terms i.castSucc) s t) :
    Totals terms (s + terms (Fin.last n)) (t + terms (Fin.last n)) := by
  cases h with
  | zeros h =>
    by_cases hlast : terms (Fin.last n) = -0
    · rw [hlast, zero_add_neg_zero, neg_zero_add]
      refine .zeros fun i => ?_
      cases i using Fin.lastCases with
      | last => exact hlast
      | cast i => exact h i
    · rw [zero_add hlast, neg_zero_add]
      exact .equal _ hlast _
  | equal i h s => exact .equal i.castSucc h _

theorem totals_sumFrom (terms : Fin n → Float) :
    Totals terms (sumFrom 0 terms) (sumFrom (-0) terms) := by
  unfold sumFrom
  induction n with
  | zero =>
    rw [Fin.foldl_zero, Fin.foldl_zero]
    exact .zeros fun i => i.elim0
  | succ n ih =>
    rw [Fin.foldl_succ_last, Fin.foldl_succ_last]
    exact (ih fun i => terms i.castSucc).step

variable {terms : Fin n → Float} {s t : Float}

theorem Totals.agree (h : Totals terms s t) : Agree s t := by
  cases h with
  | zeros h => exact .inr (.inr (.inl ⟨rfl, rfl⟩))
  | equal i h s => exact .inl rfl

theorem Totals.oppositeZeros_iff (h : Totals terms s t) :
    OppositeZeros s t ↔ ∀ i, terms i = -0 := by
  cases h with
  | zeros h => exact ⟨fun _ => h, fun _ => .inl ⟨rfl, rfl⟩⟩
  | equal i h s =>
    constructor
    · rintro (⟨h₀, h₁⟩ | ⟨h₁, h₀⟩)
      · exact absurd (h₀.symm.trans h₁) zero_ne_neg_zero
      · exact absurd (h₀.symm.trans h₁) zero_ne_neg_zero
    · intro hall
      exact absurd (hall i) h

end Binary64

namespace DenseMatrix

open Binary64 in
/-- Each column of a product agrees with the product with that column. Where they differ, they are
zeros of opposite signs, and that is where all terms are negative zeros. -/
theorem mul_column_agrees (A B : DenseMatrix Float) (h : B.height = A.width) (j : Fin B.width) :
    ∃ (P : DenseMatrix Float) (b : DenseVector Float) (x y : Vec Float A.height),
      A.mul B = .ok P ∧ B.column j = .ok b ∧ P.column j = .ok x.toArray ∧
      A.mulVec b = .ok y.toArray ∧
      ∀ i, Agree (x i) (y i) ∧
        (OppositeZeros (x i) (y i) ↔
          ∀ p : Fin A.width, A.entries i p * B.entries (p.cast h.symm) j = -0) := by
  obtain ⟨m, k, hm, hk, S⟩ := A
  obtain ⟨_, n, hk', hn, T⟩ := B
  cases h
  refine ⟨_, _, (S.mul T).col j, S.mulVec (T.col j), mul_mk hm hk S T, column_val _ j,
    column_val (mk m n hm hn (S.mul T)) j, mulVec_mk hm hk S _, ?_⟩
  intro i
  have htotals := totals_sumFrom fun p => S i p * T p j
  have hx : (S.mul T).col j i = sumFrom 0 fun p => S i p * T p j := by simp
  have hy : S.mulVec (T.col j) i = sumFrom (-0) fun p => S i p * T p j := by
    simp [Vec.dot, sum]
  rw [hx, hy]
  exact ⟨htotals.agree, htotals.oppositeZeros_iff⟩

def exceptional : Mat Float 4 2 := .ofFn ![![0, -0], ![1e200, 0.1], ![1 / 0, 2], ![0 / 0, 1]]

def signed : Mat Float 2 2 := .ofFn ![![-1, -1e200], ![0, 0.3]]

open Binary64 in
theorem mul_column_agrees_exceptional :
    let A : DenseMatrix Float := ⟨4, 2, Nat.succ_pos 3, Nat.two_pos, exceptional⟩
    let B : DenseMatrix Float := ⟨2, 2, Nat.two_pos, Nat.two_pos, signed⟩
    B.height = A.width ∧
    (∃ (P : DenseMatrix Float) (b : DenseVector Float) (x y : Vec Float 4),
      A.mul B = .ok P ∧ B.column 0 = .ok b ∧ P.column 0 = .ok x.toArray ∧
      A.mulVec b = .ok y.toArray ∧ (∀ i, Agree (x i) (y i)) ∧
      OppositeZeros (x 0) (y 0) ∧ ¬OppositeZeros (x 2) (y 2)) := by
  intro A B
  have hzeros : ∀ p, exceptional 0 p * signed p 0 = -0 := by decide +kernel
  have hother : ¬∀ p, exceptional 2 p * signed p 0 = -0 := by decide +kernel
  obtain ⟨P, b, x, y, hP, hb, hx, hy, hall⟩ := mul_column_agrees A B rfl 0
  exact ⟨rfl, P, b, x, y, hP, hb, hx, hy, fun i => (hall i).1, (hall 0).2.mpr hzeros,
    fun h => hother ((hall 2).2.mp h)⟩

section

variable {α : Type} [Scalar α] {A B : DenseMatrix α}

theorem exists_mul_transpose_iff :
    (∃ P, A.mul B = .ok P) ↔ ∃ Q, B.transpose.mul A.transpose = .ok Q := by
  rw [exists_mul_iff, exists_mul_iff]
  exact eq_comm

/-- The entries of a product, summed from left to right. -/
theorem mul_eq_sums {P : DenseMatrix α} (h : A.mul B = .ok P) :
    ∃ (h : B.height = A.width) (S : Mat α A.height B.width),
      P = ⟨A.height, B.width, A.height_pos, B.width_pos, S⟩ ∧
      ∀ i j, S i j =
        sumFrom 0 fun p : Fin A.width => A.entries i p * B.entries (p.cast h.symm) j := by
  have hsize := exists_mul_iff.mp ⟨P, h⟩
  obtain ⟨m, k, hm, hk, S⟩ := A
  obtain ⟨_, n, hk', hn, T⟩ := B
  cases hsize
  rw [mul_mk] at h
  cases h
  exact ⟨rfl, S.mul T, rfl, fun i j => by simp⟩

theorem transpose_mul_of_comm (hcomm : ∀ x y : α, x * y = y * x) {P : DenseMatrix α}
    (h : A.mul B = .ok P) : B.transpose.mul A.transpose = .ok P.transpose := by
  have hsize := exists_mul_iff.mp ⟨P, h⟩
  obtain ⟨m, k, hm, hk, S⟩ := A
  obtain ⟨_, n, hk', hn, T⟩ := B
  cases hsize
  rw [mul_mk] at h
  cases h
  simp only [transpose, mul_mk, Mat.transpose_mul_of_comm hcomm]

end

/-- The product of the transposes in the other order exists with that of two matrices, which adds
the products of entries from left to right to zero. It is its transpose wherever factors commute, as
binary64 numbers do. -/
theorem mul_transpose_of_comm :
    (∀ x y : Float, x * y = y * x) ∧
    ∀ (α : Type) [Scalar α] (A B : DenseMatrix α),
      A.transpose.transpose = A ∧ (∀ i j, A.transpose.entries i j = A.entries j i) ∧
      ((∃ P, A.mul B = .ok P) ↔ ∃ Q, B.transpose.mul A.transpose = .ok Q) ∧
      (∀ P, A.mul B = .ok P → ∃ (h : B.height = A.width) (S : Mat α A.height B.width),
        P = ⟨A.height, B.width, A.height_pos, B.width_pos, S⟩ ∧
        ∀ i j, S i j =
          sumFrom 0 fun p : Fin A.width => A.entries i p * B.entries (p.cast h.symm) j) ∧
      ((∀ x y : α, x * y = y * x) →
        ∀ P, A.mul B = .ok P → B.transpose.mul A.transpose = .ok P.transpose) := by
  refine ⟨Binary64.mul_comm, ?_⟩
  intro α _ A B
  exact ⟨A.transpose_transpose, fun i j => A.entries.transpose_apply i j, exists_mul_transpose_iff,
    fun P hP => mul_eq_sums hP, fun hcomm P hP => transpose_mul_of_comm hcomm hP⟩

theorem mul_transpose_exceptional :
    let A : DenseMatrix Float := ⟨4, 2, Nat.succ_pos 3, Nat.two_pos, exceptional⟩
    let B : DenseMatrix Float := ⟨2, 2, Nat.two_pos, Nat.two_pos, signed⟩
    (∀ x y : Float, x * y = y * x) ∧ A.transpose.transpose = A ∧
    ∃ P, A.mul B = .ok P ∧ B.transpose.mul A.transpose = .ok P.transpose ∧
      ∃ S : Mat Float 4 2, P = ⟨4, 2, Nat.succ_pos 3, Nat.two_pos, S⟩ ∧
        S 1 1 = 0 + 1e200 * -1e200 + 0.1 * 0.3 := by
  intro A B
  obtain ⟨hcomm, hlaws⟩ := mul_transpose_of_comm
  obtain ⟨hA, _, _, hentries, hmul⟩ := hlaws Float A B
  obtain ⟨_, S, hS, hsums⟩ := hentries _ (mul_mk _ _ _ _)
  refine ⟨hcomm, hA, _, mul_mk _ _ _ _, hmul hcomm _ (mul_mk _ _ _ _), S, hS, ?_⟩
  exact hsums 1 1

end DenseMatrix

end DenseLinear
