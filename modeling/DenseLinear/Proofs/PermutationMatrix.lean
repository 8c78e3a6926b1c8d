import DenseLinear.Proofs.Inverse

/-!
# Permutation matrices

In a permutation matrix the pivot of a column is its only entry, and a pivot step does nothing but
exchange two rows, which leaves a permutation matrix. So inversion always finds a pivot, and since
the transpose is an inverse, it answers with the transpose.
-/

namespace DenseLinear.Mat

variable {n : Nat}

section

variable {α : Type} [Zero α] [One α]

def ofPerm (σ : Equiv.Perm (Fin n)) : Mat α n n := ofFn fun i j => if i = σ j then 1 else 0

@[simp] theorem ofPerm_apply (σ : Equiv.Perm (Fin n)) (i j : Fin n) :
    (ofPerm σ : Mat α n n) i j = if i = σ j then 1 else 0 := by
  simp [ofPerm]

theorem swapRows_ofPerm (σ : Equiv.Perm (Fin n)) (a b : Fin n) :
    (ofPerm σ : Mat α n n).swapRows a b = ofPerm (Equiv.swap a b * σ) := by
  ext i j
  rw [swapRows_eq_swap, ofPerm_apply, ofPerm_apply, Equiv.Perm.mul_apply]
  exact if_congr Equiv.swap_apply_eq_iff rfl rfl

end

variable {K : Type} [Field K] [LinearOrder K] {σ : Equiv.Perm (Fin n)}

theorem transpose_mul_ofPerm (σ : Equiv.Perm (Fin n)) :
    (ofPerm σ : Mat K n n).transpose.mul (ofPerm σ) = identity n := by
  ext i j
  simp only [mul_entry, transpose_apply, ofPerm_apply, ite_mul, one_mul, zero_mul, identity_apply]
  rw [Finset.sum_ite_eq', if_pos (Finset.mem_univ _)]
  exact if_congr σ.injective.eq_iff rfl rfl

theorem ofPerm_mul_transpose (σ : Equiv.Perm (Fin n)) :
    (ofPerm σ : Mat K n n).mul (ofPerm σ).transpose = identity n :=
  mul_eq_identity_comm.mp (transpose_mul_ofPerm σ)

/-- The row that is moved is the only one with an entry in the column. -/
theorem pivotOn_ofPerm {i r : Fin n} (hr : (ofPerm σ : Mat K n n) r i ≠ 0) :
    (ofPerm σ : Mat K n n).pivotOn i r i = ofPerm (Equiv.swap i r * σ) := by
  obtain rfl : r = σ i := by
    by_contra hne
    exact hr (by rw [ofPerm_apply, if_neg hne])
  rw [← swapRows_ofPerm]
  ext p j
  rw [pivotOn_apply, ofPerm_apply σ (σ i) i, if_pos rfl, div_one]
  split_ifs with hp
  · rw [hp, swapRows_apply_left]
  · have hclear : ((ofPerm σ : Mat K n n).swapRows i (σ i)) p i = 0 := by
      rw [swapRows_ofPerm, ofPerm_apply, Equiv.Perm.mul_apply, Equiv.swap_apply_right, if_neg hp]
    rw [hclear, zero_mul, sub_zero]

variable [IsStrictOrderedRing K]

theorem inversionUpTo_ofPerm {k : Nat} {h : k ≤ n} {s : Augmented K n}
    (e : (ofPerm σ).inversionUpTo k h = .ok s) : ∃ τ, s.left = ofPerm τ := by
  refine tryAfterSteps_induction (fun _ s => ∃ τ, s.left = ofPerm τ) ⟨σ, rfl⟩ ?_ e
  rintro i s t ⟨τ, hs⟩ ht
  obtain ⟨r, _, hne, hl, _⟩ := inversionStep_eq_ok ht
  rw [hs] at hne hl
  exact ⟨Equiv.swap i r * τ, hl.trans (pivotOn_ofPerm hne)⟩

/-- The one of the next column is in none of the rows that hold the ones of the columns before. -/
theorem inverse_ofPerm_ne_none (σ : Equiv.Perm (Fin n)) : (ofPerm σ : Mat K n n).inverse ≠ none := by
  rw [Ne, inverse_eq_none_iff]
  rintro ⟨i, s, hs, hsmall⟩
  obtain ⟨τ, hτ⟩ := inversionUpTo_ofPerm hs
  have hle : i ≤ τ i := by
    by_contra hlt
    have hunit := inversionUpTo_column hs (τ i) (not_le.mp hlt) (τ i)
    rw [hτ, ofPerm_apply, if_pos rfl, ite_eq_left_iff] at hunit
    have hsame : τ i = τ (τ i) := by
      by_contra hne
      exact zero_ne_one (hunit hne)
    exact hlt (τ.injective hsame).le
  have hone := hsmall (τ i) hle
  rw [hτ, ofPerm_apply, if_pos rfl] at hone
  exact hone.not_gt significant_one

theorem inverse_ofPerm (σ : Equiv.Perm (Fin n)) :
    (ofPerm σ : Mat K n n).inverse = some (ofPerm σ).transpose := by
  obtain ⟨B, hB⟩ := Option.ne_none_iff_exists'.mp (inverse_ofPerm_ne_none (K := K) σ)
  rw [hB]
  congr 1
  calc B = (B.mul (ofPerm σ)).mul (ofPerm σ).transpose := by
        rw [mul_mul, ofPerm_mul_transpose, mul_identity]
    _ = (ofPerm σ).transpose := by rw [mul_of_inverse hB, identity_mul]

end DenseLinear.Mat
