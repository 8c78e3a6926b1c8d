import DenseLinear.Proofs.Inverse

/-!
# Singular matrices

The determinant and the inverse are found by two eliminations that keep in step: in the rows that
are still to be processed they hold the same entries, so they choose the same row and meet the same
pivot. One gets stuck where the other does, with the same pivot. If neither does, the determinant is
a product of pivots, which is not zero.
-/

namespace DenseLinear

namespace Mat

section

variable {α : Type} {m n : Nat} {A B : Mat α m n}

def AgreeFrom (k : Nat) (A B : Mat α m n) : Prop := ∀ r : Fin m, k ≤ r.val → ∀ c, A r c = B r c

theorem AgreeFrom.swapRows {i r : Fin m} (h : AgreeFrom i A B) (hr : i ≤ r) :
    AgreeFrom i (A.swapRows i r) (B.swapRows i r) := by
  intro p hp c
  simp only [swapRows_apply, h r hr, h i le_rfl, h p hp]

theorem AgreeFrom.largestRow_eq [Scalar α] {i : Fin m} (h : AgreeFrom i A B) (c : Fin n) :
    A.largestRow i c = B.largestRow i c :=
  largestRow_congr fun r hr => h r hr c

end

variable {K : Type} [Field K] [LinearOrder K] {n : Nat} {A : Mat K n n}

/-- Below the pivot it makes no difference whether the pivot row or the factor is divided. -/
theorem eliminationStep_inStep {i : Fin n} {s : Elimination K n} {t : Augmented K n}
    (h : AgreeFrom i s.matrix t.left) :
    InStep (fun s t => AgreeFrom (i + 1) s.matrix t.left)
      (eliminationStep i s) (inversionStep i t) := by
  have hir := t.left.le_largestRow i i
  have hswap := h.swapRows hir
  rw [eliminationStep_eq (h.largestRow_eq i), inversionStep_eq rfl, h _ hir]
  split_ifs with hn
  · exact .refused _
  · apply InStep.accepted
    intro p hp c
    have hip : i < p := hp
    simp only [eliminate_apply, divRow_apply, if_pos hip, if_neg hip.ne', if_pos hip.ne', if_true,
      hswap p hip.le, hswap i le_rfl]
    rw [div_mul_eq_mul_div, mul_div_assoc]

theorem eliminationUpTo_inStep (A : Mat K n n) (k : Nat) (h : k ≤ n) :
    InStep (fun s t => AgreeFrom k s.matrix t.left)
      (A.eliminationUpTo k h) (A.inversionUpTo k h) := by
  refine tryAfterSteps_inStep (fun k (s : Elimination K n) (t : Augmented K n) =>
    AgreeFrom k s.matrix t.left) ?_ ?_ k h
  · intro r _ c
    rfl
  · intro i s t hst
    exact eliminationStep_inStep hst

variable [IsStrictOrderedRing K]

theorem eliminationUpTo_det_ne_zero {k : Nat} {h : k ≤ n} {s : Elimination K n}
    (e : A.eliminationUpTo k h = .ok s) : s.det ≠ 0 := by
  refine tryAfterSteps_induction (fun _ (s : Elimination K n) => s.det ≠ 0) one_ne_zero ?_ e
  intro i s t hs ht
  rw [eliminationStep_eq rfl] at ht
  split_ifs at ht with hn
  cases ht
  apply mul_ne_zero _ (ne_zero_of_not_negligible hn)
  unfold Elimination.exchange
  split_ifs
  · exact hs
  · exact neg_ne_zero.mpr hs

theorem det_eq_zero_iff : A.det = 0 ↔ A.inverse = none := by
  have h := A.eliminationUpTo_inStep n le_rfl
  have hdet (s) (e : A.eliminationUpTo n le_rfl = .ok s) : s.det ≠ 0 :=
    eliminationUpTo_det_ne_zero e
  unfold det inverse elimination
  generalize A.eliminationUpTo n le_rfl = x at h hdet
  generalize A.inversionUpTo n le_rfl = y at h
  cases h with
  | refused e => simp
  | accepted _ => simpa using hdet _ rfl

end Mat

namespace DenseMatrix

variable {K : Type} [Field K] [LinearOrder K] [IsStrictOrderedRing K]

/-- The determinant is zero exactly if there is no inverse. Both eliminations get stuck at the same
pivot if at all, and choose the same row and meet the same pivot at each step that they reach. -/
theorem det_eq_zero_iff_singular (A : DenseMatrix K) (S : Mat K A.height A.height)
    (hS : A.toSquare = .ok S) :
    (A.det.result = .ok 0 ↔ A.inverse = .error .singular) ∧
    (∀ stall, S.elimination = .error stall ↔
      S.inversionUpTo A.height le_rfl = .error stall) ∧
    ∀ (i : Fin A.height) (s : Elimination K A.height) (t : Augmented K A.height),
      S.eliminationUpTo i i.isLt.le = .ok s → S.inversionUpTo i i.isLt.le = .ok t →
      ∃ r, s.matrix.largestRow i i = r ∧ t.left.largestRow i i = r ∧
        (s.exchange i r).matrix i i = (t.left.swapRows i r) i i := by
  refine ⟨?_, (S.eliminationUpTo_inStep A.height le_rfl).error_iff, ?_⟩
  · obtain ⟨m, n, hm, hn, E⟩ := A
    obtain rfl : n = m := width_eq_of_toSquare hS
    have h := Mat.det_eq_zero_iff (A := E)
    rw [det_mk, inverse_mk]
    cases hE : E.inverse <;> simp_all
  · intro i s t hs ht
    have h := S.eliminationUpTo_inStep i i.isLt.le
    rw [hs, ht] at h
    refine ⟨_, h.related.largestRow_eq i, rfl, ?_⟩
    rw [Mat.exchange_matrix, Mat.swapRows_apply_left, Mat.swapRows_apply_left,
      h.related _ (t.left.le_largestRow i i)]

/-- The first two steps exchange rows, and the third finds no pivot. -/
def dependent : Mat ℚ 3 3 := .ofFn ![![1, 2, 3], ![4, 5, 6], ![7, 8, 9]]

theorem det_dependent :
    let A : DenseMatrix ℚ := ⟨3, 3, Nat.succ_pos 2, Nat.succ_pos 2, dependent⟩
    A.toSquare = .ok dependent ∧ A.inverse = .error .singular ∧ A.det.result = .ok 0 ∧
      ∃ s t, dependent.eliminationUpTo 1 (Nat.le_add_left 1 2) = .ok s ∧
        dependent.inversionUpTo 1 (Nat.le_add_left 1 2) = .ok t ∧
        ∃ r, s.matrix.largestRow 1 1 = r ∧ t.left.largestRow 1 1 = r ∧
          (s.exchange 1 r).matrix 1 1 = (t.left.swapRows 1 r) 1 1 := by
  intro A
  have hS : A.toSquare = .ok dependent := toSquare_mk _ _ _
  obtain ⟨hdet, _, hsteps⟩ := det_eq_zero_iff_singular A dependent hS
  have hnone : dependent.inverse = none := by decide +kernel
  have hinv : A.inverse = .error .singular := by rw [inverse_mk, hnone]
  have hok : (dependent.eliminationUpTo 1 (Nat.le_add_left 1 2)).isOk ∧
      (dependent.inversionUpTo 1 (Nat.le_add_left 1 2)).isOk := by decide +kernel
  obtain ⟨s, hs⟩ := exists_eq_ok_of_isOk hok.1
  obtain ⟨t, ht⟩ := exists_eq_ok_of_isOk hok.2
  exact ⟨hS, hinv, hdet.mpr hinv, s, t, hs, ht, hsteps (1 : Fin 3) s t hs ht⟩

end DenseMatrix

end DenseLinear
