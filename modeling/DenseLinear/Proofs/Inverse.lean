import DenseLinear.Dense.Solve
import DenseLinear.Proofs.Pivot

/-!
# The inverse

Inversion keeps the left side equal to the right side times the matrix, and turns one column after
the other into a unit column. When the last column is done, the right side is a left inverse, and
so a right inverse. It is refused at a step with no candidate for a pivot, as it must be for every
matrix with a kernel.
-/

namespace DenseLinear

namespace Mat

variable {K : Type} [Field K] [LinearOrder K] {n : Nat}

/-- An accepted step is a pivot step on the left, and the same row operations on the right. -/
theorem inversionStep_eq_ok [IsStrictOrderedRing K] {i : Fin n} {s t : Augmented K n}
    (h : inversionStep i s = .ok t) :
    ∃ r, i ≤ r ∧ s.left r i ≠ 0 ∧ t.left = s.left.pivotOn i r i ∧
      t.right = s.right.clearWith i r (s.left r i) ((s.left.swapRows i r).entry · i) := by
  rw [inversionStep_eq rfl] at h
  split_ifs at h with hn
  cases h
  refine ⟨s.left.largestRow i i, s.left.le_largestRow i i, ne_zero_of_not_negligible hn, ?_, rfl⟩
  rw [pivotOn_eq_clearWith]
  rfl

theorem inversionStep_refused_iff {i : Fin n} {s : Augmented K n} :
    (∃ e, inversionStep i s = .error e) ↔ ∀ r, i ≤ r → |s.left r i| < 1 / 10 ^ 10 := by
  rw [← negligible_largestRow_iff, inversionStep_eq rfl]
  split_ifs with hn <;> simp [hn]

variable {A B : Mat K n n}

theorem inverse_eq_none_iff :
    A.inverse = none ↔ ∃ (i : Fin n) (s : Augmented K n),
      A.inversionUpTo i i.isLt.le = .ok s ∧ ∀ r, i ≤ r → |s.left r i| < 1 / 10 ^ 10 := by
  unfold inverse
  constructor
  · intro h
    split at h
    · cases h
    · rename_i e he
      obtain ⟨i, s, _, hs, hstep⟩ := tryAfterSteps_eq_error he
      exact ⟨i, s, hs, inversionStep_refused_iff.mp ⟨e, hstep⟩⟩
  · rintro ⟨i, s, hs, hsmall⟩
    obtain ⟨e, he⟩ := inversionStep_refused_iff.mpr hsmall
    have hrun : A.inversionUpTo n le_rfl = .error e := tryAfterSteps_error_of_step hs he i.isLt
    rw [hrun]

variable [IsStrictOrderedRing K]

theorem inversionUpTo_left {k : Nat} {h : k ≤ n} {s : Augmented K n}
    (e : A.inversionUpTo k h = .ok s) : s.left = s.right.mul A := by
  refine tryAfterSteps_induction (fun _ s => s.left = s.right.mul A) ?_ ?_ e
  · exact (identity_mul A).symm
  · intro i s t hs ht
    obtain ⟨r, _, _, hl, hr⟩ := inversionStep_eq_ok ht
    rw [hr, clearWith_mul, ← hs, hl, pivotOn_eq_clearWith]

omit [IsStrictOrderedRing K] in
/-- A pivot step adds a unit column. The exchanged rows are not above the current one, so it does not
touch those that are there. -/
theorem unit_pivotOn {i r : Fin n} (h : ∀ j < i, ∀ p, A p j = if p = j then 1 else 0) (hir : i ≤ r)
    (hne : A r i ≠ 0) (j : Fin n) (hj : j.val < i + 1) (p : Fin n) :
    (A.pivotOn i r i) p j = if p = j then 1 else 0 := by
  rcases lt_or_eq_of_lt_succ hj with hlt | rfl
  · have hi : A i j = 0 := by rw [h j hlt, if_neg hlt.ne']
    have hr : A r j = 0 := by rw [h j hlt, if_neg (hlt.trans_le hir).ne']
    rw [pivotOn_column_of_zero hi hr, h j hlt]
  · exact pivotOn_pivot_column A j r hne p

theorem inversionUpTo_column {k : Nat} {h : k ≤ n} {s : Augmented K n}
    (e : A.inversionUpTo k h = .ok s) :
    ∀ j : Fin n, j.val < k → ∀ p, s.left p j = if p = j then 1 else 0 := by
  refine tryAfterSteps_induction
    (fun k s => ∀ j : Fin n, j.val < k → ∀ p, s.left p j = if p = j then 1 else 0) ?_ ?_ e
  · intro j hj
    exact absurd hj (Nat.not_lt_zero _)
  · intro i s t hs ht
    obtain ⟨r, hir, hne, hl, _⟩ := inversionStep_eq_ok ht
    rw [hl]
    exact unit_pivotOn hs hir hne

theorem mul_of_inverse (h : A.inverse = some B) : B.mul A = identity n := by
  unfold inverse at h
  split at h
  · rename_i s hs
    cases h
    rw [← inversionUpTo_left hs]
    ext p j
    rw [inversionUpTo_column hs j j.isLt, identity_apply]
  · cases h

/-- A matrix with an inverse has no kernel. -/
theorem inverse_eq_none_of_kernel {v : Vec K n} (hv : v ≠ .replicate n 0)
    (hA : A.mulVec v = .replicate n 0) : A.inverse = none := by
  cases h : A.inverse with
  | none => rfl
  | some B =>
    have hzero : v = .replicate n 0 := by
      rw [← identity_mulVec v, ← mul_of_inverse h, mul_mulVec, hA, mulVec_zero]
    exact absurd hzero hv

end Mat

namespace DenseMatrix

variable {K : Type} [Field K] [LinearOrder K] [IsStrictOrderedRing K]

theorem mul_of_inverse_eq_ok {A B : DenseMatrix K} (h : A.inverse = .ok B) :
    ∃ I, identity A.height = .ok I ∧ A.mul B = .ok I ∧ B.mul A = .ok I := by
  obtain ⟨S, hS, _⟩ := bind_eq_ok.mp h
  obtain ⟨m, n, hm, hn, E⟩ := A
  obtain rfl : n = m := width_eq_of_toSquare hS
  rw [inverse_mk] at h
  cases hE : E.inverse with
  | none => simp [hE] at h
  | some F =>
    simp only [hE, Except.ok.injEq] at h
    subst h
    have hl := Mat.mul_of_inverse hE
    have hr := Mat.mul_eq_identity_comm.mp hl
    exact ⟨_, identity_mk hm, by rw [mul_mk, hr], by rw [mul_mk, hl]⟩

/-- Inversion answers with a two-sided inverse, or finds a step without a candidate for a pivot. -/
theorem inverse_two_sided_or_stalled (A : DenseMatrix K) (S : Mat K A.height A.height)
    (hS : A.toSquare = .ok S) :
    (∀ B, A.inverse = .ok B → ∃ I, DenseMatrix.identity A.height = .ok I ∧
      A.mul B = .ok I ∧ B.mul A = .ok I) ∧
    ((∃ B, A.inverse = .ok B) ∨ A.inverse = .error .singular) ∧
    (A.inverse = .error .singular ↔ ∃ (i : Fin A.height) (s : Augmented K A.height),
      S.inversionUpTo i i.isLt.le = .ok s ∧ ∀ r, i ≤ r → |s.left r i| < 1 / 10 ^ 10) ∧
    ∀ v : Vec K A.height, v ≠ .replicate A.height 0 → S.mulVec v = .replicate A.height 0 →
      A.inverse = .error .singular := by
  refine ⟨fun B => mul_of_inverse_eq_ok, ?_⟩
  obtain ⟨m, n, hm, hn, E⟩ := A
  obtain rfl : n = m := width_eq_of_toSquare hS
  obtain rfl : E = S := Except.ok.inj ((toSquare_mk hm hn E).symm.trans hS)
  rw [inverse_mk, ← Mat.inverse_eq_none_iff]
  refine ⟨?_, ?_, ?_⟩
  · cases hE : E.inverse <;> simp
  · cases hE : E.inverse <;> simp
  · intro v hv hA
    simp [Mat.inverse_eq_none_of_kernel hv hA]

/-- The pivot of the first column is in the second row. -/
def exchanged : DenseMatrix ℚ := ⟨2, 2, Nat.two_pos, Nat.two_pos, .ofFn ![![0, 2], ![1, 3]]⟩

theorem inverse_exchanged :
    exchanged.toSquare = .ok exchanged.entries ∧
    ∃ B, exchanged.inverse = .ok B ∧
      ∃ I, identity 2 = .ok I ∧ exchanged.mul B = .ok I ∧ B.mul exchanged = .ok I := by
  have hS : exchanged.toSquare = .ok exchanged.entries := toSquare_mk _ _ _
  have hE : (Mat.ofFn ![![0, 2], ![1, 3]] : Mat ℚ 2 2).inverse =
      some (.ofFn ![![-3 / 2, 1], ![1 / 2, 0]]) := by decide +kernel
  have hB : exchanged.inverse =
      .ok ⟨2, 2, Nat.two_pos, Nat.two_pos, .ofFn ![![-3 / 2, 1], ![1 / 2, 0]]⟩ := by
    rw [exchanged, inverse_mk, hE]
  exact ⟨hS, _, hB, (inverse_two_sided_or_stalled exchanged _ hS).1 _ hB⟩

end DenseMatrix

end DenseLinear
