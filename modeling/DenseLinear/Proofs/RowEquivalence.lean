import DenseLinear.Mat.RowOps
import DenseLinear.Proofs.Matrix

/-!
# Row equivalence

A row operation commutes with multiplication from the right, so it is itself the multiplication by
what it makes of the identity. Each operation is undone by another one. Hence a sequence of row
operations multiplies a matrix from the left by an invertible one.
-/

namespace DenseLinear.Mat

variable {α K : Type} [Field K] {m n k : Nat}

theorem swapRows_eq_swap (A : Mat α m n) (a b i : Fin m) (j : Fin n) :
    (A.swapRows a b) i j = A (Equiv.swap a b i) j := by
  rw [swapRows_apply, Equiv.swap_apply_def]
  split_ifs <;> rfl

theorem swapRows_swapRows (A : Mat α m n) (a b : Fin m) :
    (A.swapRows a b).swapRows a b = A := by
  ext i j
  rw [swapRows_eq_swap, swapRows_eq_swap, Equiv.swap_apply_self]

theorem divRow_divRow (A : Mat K m n) (i : Fin m) {d : K} (hd : d ≠ 0) :
    (A.divRow i d).divRow i d⁻¹ = A := by
  ext r j
  by_cases h : r = i <;> simp [h, hd]

theorem eliminate_eliminate (A : Mat K m n) {source : Fin m} {target : Fin m → Prop}
    [DecidablePred target] (hs : ¬target source) (factor : Fin m → K) :
    (A.eliminate source target factor).eliminate source target (-factor) = A := by
  ext r j
  by_cases h : target r <;> simp [h, hs]

variable [LinearOrder K]

theorem swapRows_mul (A : Mat K m k) (B : Mat K k n) (a b : Fin m) :
    (A.swapRows a b).mul B = (A.mul B).swapRows a b := by
  ext i j
  simp only [mul_entry, swapRows_apply]
  split_ifs <;> rfl

theorem divRow_mul (A : Mat K m k) (B : Mat K k n) (i : Fin m) (d : K) :
    (A.divRow i d).mul B = (A.mul B).divRow i d := by
  ext r j
  simp only [mul_entry, divRow_apply]
  split_ifs
  · rw [Finset.sum_div]
    exact Finset.sum_congr rfl fun p _ => div_mul_eq_mul_div _ _ _
  · rfl

theorem eliminate_mul (A : Mat K m k) (B : Mat K k n) (source : Fin m) (target : Fin m → Prop)
    [DecidablePred target] (factor : Fin m → K) :
    (A.eliminate source target factor).mul B = (A.mul B).eliminate source target factor := by
  ext r j
  simp only [mul_entry, eliminate_apply]
  split_ifs
  · simp only [sub_mul, Finset.sum_sub_distrib, mul_assoc, Finset.mul_sum]
  · rfl

/-- `B` is `A` multiplied from the left by an invertible matrix. -/
def RowEquivalent (A B : Mat K m n) : Prop :=
  ∃ E F : Mat K m m, E.mul F = identity m ∧ F.mul E = identity m ∧ B = E.mul A

namespace RowEquivalent

variable {A B C : Mat K m n}

theorem refl (A : Mat K m n) : RowEquivalent A A :=
  ⟨identity m, identity m, identity_mul _, identity_mul _, (identity_mul A).symm⟩

theorem trans (hab : RowEquivalent A B) (hbc : RowEquivalent B C) : RowEquivalent A C := by
  obtain ⟨E, F, hEF, hFE, rfl⟩ := hab
  obtain ⟨G, H, hGH, hHG, rfl⟩ := hbc
  refine ⟨G.mul E, F.mul H, ?_, ?_, (mul_mul G E A).symm⟩
  · rw [mul_mul, ← mul_mul E, hEF, identity_mul, hGH]
  · rw [mul_mul, ← mul_mul H, hHG, identity_mul, hFE]

theorem symm (h : RowEquivalent A B) : RowEquivalent B A := by
  obtain ⟨E, F, hEF, hFE, rfl⟩ := h
  exact ⟨F, E, hFE, hEF, by rw [← mul_mul, hFE, identity_mul]⟩

theorem swapRows (A : Mat K m n) (a b : Fin m) : RowEquivalent A (A.swapRows a b) := by
  refine ⟨(identity m).swapRows a b, (identity m).swapRows a b, ?_, ?_, ?_⟩
  · rw [swapRows_mul, identity_mul, swapRows_swapRows]
  · rw [swapRows_mul, identity_mul, swapRows_swapRows]
  · rw [swapRows_mul, identity_mul]

theorem divRow (A : Mat K m n) (i : Fin m) {d : K} (hd : d ≠ 0) :
    RowEquivalent A (A.divRow i d) := by
  refine ⟨(identity m).divRow i d, (identity m).divRow i d⁻¹, ?_, ?_, ?_⟩
  · have h := divRow_divRow (identity m) i (inv_ne_zero hd)
    rwa [inv_inv, ← identity_mul ((identity m).divRow i d⁻¹), ← divRow_mul] at h
  · rw [divRow_mul, identity_mul, divRow_divRow _ _ hd]
  · rw [divRow_mul, identity_mul]

theorem eliminate (A : Mat K m n) {source : Fin m} {target : Fin m → Prop}
    [DecidablePred target] (hs : ¬target source) (factor : Fin m → K) :
    RowEquivalent A (A.eliminate source target factor) := by
  refine ⟨(identity m).eliminate source target factor,
    (identity m).eliminate source target (-factor), ?_, ?_, ?_⟩
  · have h := eliminate_eliminate (identity m) hs (-factor)
    rwa [neg_neg, ← identity_mul ((identity m).eliminate source target (-factor)),
      ← eliminate_mul] at h
  · rw [eliminate_mul, identity_mul, eliminate_eliminate _ hs]
  · rw [eliminate_mul, identity_mul]

/-- The solutions of the homogeneous system do not change. -/
theorem mulVec_eq_zero_iff (h : RowEquivalent A B) (x : Vec K n) :
    A.mulVec x = .replicate m 0 ↔ B.mulVec x = .replicate m 0 := by
  obtain ⟨E, F, _, hFE, rfl⟩ := h
  constructor
  · intro hx
    rw [mul_mulVec, hx, mulVec_zero]
  · intro hx
    rw [← identity_mulVec (A.mulVec x), ← hFE, mul_mulVec, ← mul_mulVec E, hx, mulVec_zero]

/-- Every row of `B` is a linear combination of the rows of `A`. -/
theorem exists_combination (h : RowEquivalent A B) (i : Fin m) :
    ∃ c : Fin m → K, ∀ j, B i j = ∑ p, c p * A p j := by
  obtain ⟨E, F, _, _, rfl⟩ := h
  exact ⟨E i, fun j => mul_entry E A i j⟩

end RowEquivalent

end DenseLinear.Mat
