import DenseLinear.Dense.Solve
import DenseLinear.Proofs.Matrix

/-!
# Triangular factors

A step of the factorization adds a column to the lower factor and a row to the upper one. Their
products are added to the product of the factors, and are just what it lacked in the row and the
column of the step; the rows and columns before do not change. After the last step the product is
the matrix.
-/

namespace DenseLinear

namespace Mat

variable {K : Type} [Field K] [LinearOrder K] {m k n : Nat}

/-- Setting a column that was zero, and the row that it meets, adds their products to every
entry. -/
theorem mul_setCol_setRow {L : Mat K m k} {i : Fin k} (hL : ∀ r, L r i = 0) (U : Mat K k n)
    (l : Fin m → K) (u : Fin n → K) (r : Fin m) (c : Fin n) :
    ((L.setCol i l).mul (U.setRow i u)) r c = (L.mul U) r c + l r * u c := by
  have hrest : ∀ p ∈ ({i} : Finset (Fin k))ᶜ,
      (L.setCol i l) r p * (U.setRow i u) p c = L r p * U p c := by
    intro p hp
    have hpi : p ≠ i := by simpa using hp
    rw [setCol_apply, setRow_apply, if_neg hpi, if_neg hpi]
  rw [mul_entry, mul_entry, Fintype.sum_eq_add_sum_compl i, Fintype.sum_eq_add_sum_compl i,
    Finset.sum_congr rfl hrest, hL, setCol_apply, setRow_apply, if_pos rfl, if_pos rfl, zero_mul,
    zero_add, add_comm]

end Mat

namespace LU

variable {K : Type} [Field K] [LinearOrder K] {n : Nat} {A : Mat K n n} {f g : LU K n} {i : Fin n}

/-- The factors are triangular, with their diagonals in place up to `k`, and zero from `k` on. -/
structure ShapeUpTo (k : Nat) (f : LU K n) : Prop where
  diagonal : ∀ j : Fin n, j.val < k → f.lower j j = 1
  above : ∀ r c, r < c → f.lower r c = 0
  below : ∀ r c, c < r → f.upper r c = 0
  lower_later : ∀ r c : Fin n, k ≤ c.val → f.lower r c = 0
  upper_later : ∀ r c : Fin n, k ≤ r.val → f.upper r c = 0
  pivot : ∀ j : Fin n, j.val < k → ¬Negligible (f.upper j j)

/-- In the first `k` rows and columns, the product of the factors is `A`. -/
structure FactorsUpTo (A : Mat K n n) (k : Nat) (f : LU K n) : Prop extends f.ShapeUpTo k where
  product : ∀ r c : Fin n, r.val < k ∨ c.val < k → (f.lower.mul f.upper) r c = A r c

theorem step_eq_ok (h : step A i f = .ok g) :
    ¬Negligible (f.remainder A i i i) ∧
      g.lower = f.lower.setCol i (fun r =>
        if r = i then 1 else if i < r then f.remainder A i r i / f.remainder A i i i
        else f.lower r i) ∧
      g.upper = f.upper.setRow i fun c => if i ≤ c then f.remainder A i i c else f.upper i c := by
  simp only [step] at h
  split at h
  · cases h
  · rename_i hp
    cases h
    exact ⟨hp, rfl, rfl⟩

theorem ShapeUpTo.step (hf : f.ShapeUpTo i) (h : LU.step A i f = .ok g) : g.ShapeUpTo (i + 1) := by
  obtain ⟨hp, hl, hu⟩ := step_eq_ok h
  refine ⟨?_, ?_, ?_, ?_, ?_, ?_⟩
  · intro j hj
    rcases lt_or_eq_of_lt_succ hj with hlt | rfl
    · simp [hl, hlt.ne, hf.diagonal j hlt]
    · simp [hl]
  · intro r c hrc
    rw [hl, Mat.setCol_apply]
    split_ifs with hc hr hr
    · exact absurd (hr.trans hc.symm) hrc.ne
    · exact absurd (hc ▸ hr) hrc.asymm
    · exact hc ▸ hf.above r c hrc
    · exact hf.above r c hrc
  · intro r c hcr
    rw [hu, Mat.setRow_apply]
    split_ifs with hr hc
    · exact absurd hcr (not_lt.mpr (hr ▸ hc))
    · exact hr ▸ hf.below r c hcr
    · exact hf.below r c hcr
  · intro r c hc
    have hci : c ≠ i := Fin.ne_of_gt hc
    simp [hl, hci, hf.lower_later r c (Nat.le_of_succ_le hc)]
  · intro r c hr
    have hri : r ≠ i := Fin.ne_of_gt hr
    simp [hu, hri, hf.upper_later r c (Nat.le_of_succ_le hr)]
  · intro j hj
    rcases lt_or_eq_of_lt_succ hj with hlt | rfl
    · simp [hu, hlt.ne, hf.pivot j hlt]
    · simpa [hu] using hp

/-- The columns of the lower factor are zero from `i` on, so the sum over those before `i` is the
sum over all. -/
theorem ShapeUpTo.remainder_eq (hf : f.ShapeUpTo i) (r c : Fin n) :
    f.remainder A i r c = A r c - (f.lower.mul f.upper) r c := by
  have hzero (k : Fin n) (hk : i ≤ k) : f.lower r k * f.upper k c = 0 := by
    rw [hf.lower_later r k hk, zero_mul]
  rw [remainder, sumBefore_eq_sum hzero, Mat.mul_entry]

theorem FactorsUpTo.mul_eq (hf : f.FactorsUpTo A n) : f.lower.mul f.upper = A := by
  ext r c
  exact hf.product r c (Or.inl r.isLt)

theorem ShapeUpTo.mul_step (hf : f.ShapeUpTo i) (h : LU.step A i f = .ok g) (r c : Fin n) :
    (g.lower.mul g.upper) r c = (f.lower.mul f.upper) r c + g.lower r i * g.upper i c := by
  obtain ⟨_, hl, hu⟩ := step_eq_ok h
  rw [hl, hu, Mat.mul_setCol_setRow fun r => hf.lower_later r i le_rfl]
  simp only [Mat.setCol_apply, Mat.setRow_apply, if_true]

variable [IsStrictOrderedRing K]

theorem FactorsUpTo.step (hf : f.FactorsUpTo A i) (h : LU.step A i f = .ok g) :
    g.FactorsUpTo A (i + 1) := by
  have hg := hf.toShapeUpTo.step h
  obtain ⟨hp, hl, hu⟩ := step_eq_ok h
  have hrow (c : Fin n) (hc : i ≤ c) : g.upper i c = A i c - (f.lower.mul f.upper) i c := by
    rw [hu, Mat.setRow_apply, if_pos rfl, if_pos hc, hf.remainder_eq]
  have hcol (r : Fin n) (hr : i < r) :
      g.lower r i * g.upper i i = A r i - (f.lower.mul f.upper) r i := by
    rw [hl, Mat.setCol_apply, if_pos rfl, if_neg hr.ne', if_pos hr, hrow i le_rfl,
      ← hf.remainder_eq i i, div_mul_cancel₀ _ (ne_zero_of_not_negligible hp), hf.remainder_eq]
  refine ⟨hg, ?_⟩
  intro r c hrc
  rw [hf.mul_step h]
  by_cases hr : r < i
  · rw [hg.above r i hr, zero_mul, add_zero, hf.product r c (Or.inl hr)]
  by_cases hc : c < i
  · rw [hg.below i c hc, mul_zero, add_zero, hf.product r c (Or.inr hc)]
  rcases (not_lt.mp hr).eq_or_lt with rfl | hir
  · rw [hg.diagonal i (Nat.lt_succ_self _), one_mul, hrow c (not_lt.mp hc), add_sub_cancel]
  · obtain rfl : c = i := Fin.ext (by omega)
    rw [hcol r hir, add_sub_cancel]

theorem upTo_factors {k : Nat} {h : k ≤ n} (e : upTo A k h = .ok f) : f.FactorsUpTo A k := by
  refine tryAfterSteps_induction (fun k f => f.FactorsUpTo A k) ?_ ?_ e
  · constructor
    · constructor <;> simp
    · simp
  · intro i f g hf hg
    exact hf.step hg

end LU

namespace DenseMatrix

theorem lu_eq_ok_iff {α : Type} [Scalar α] {A : DenseMatrix α} {f : LU α A.height} :
    A.lu = .ok f ↔ ∃ S, A.toSquare = .ok S ∧ S.lu = .ok f := by
  unfold lu
  cases A.toSquare with
  | error e => simp [bind, Except.bind]
  | ok S => cases hf : S.lu <;> simp [bind, Except.bind, Except.mapError, hf]

variable {K : Type} [Field K] [LinearOrder K] [IsStrictOrderedRing K]

/-- The lower factor is unit lower triangular, the upper factor is upper triangular with pivots of
at least the tolerance, and their product is the matrix. -/
theorem lu_triangular_factors (A : DenseMatrix K) (f : LU K A.height) (h : A.lu = .ok f) :
    (∀ i, f.lower i i = 1) ∧ (∀ r c, r < c → f.lower r c = 0) ∧
    (∀ r c, c < r → f.upper r c = 0) ∧ (∀ i, 1 / 10 ^ 10 ≤ |f.upper i i|) ∧
    (A.ofSquare f.lower).mul (A.ofSquare f.upper) = .ok A := by
  obtain ⟨S, hS, hf⟩ := lu_eq_ok_iff.mp h
  obtain ⟨m, n, hm, hn, E⟩ := A
  obtain rfl : n = m := width_eq_of_toSquare hS
  obtain rfl : E = S := Except.ok.inj ((toSquare_mk hm hn E).symm.trans hS)
  have hfac : f.FactorsUpTo E n := LU.upTo_factors hf
  refine ⟨fun i => hfac.diagonal i i.isLt, hfac.above, hfac.below,
    fun i => not_lt.mp (hfac.pivot i i.isLt), ?_⟩
  simp only [ofSquare, mul_mk, hfac.mul_eq]

/-- All pivots are on the diagonal already. -/
def stacked : Mat ℚ 3 3 := .ofFn ![![2, 1, 1], ![4, 3, 3], ![8, 7, 9]]

theorem lu_stacked :
    let A : DenseMatrix ℚ := ⟨3, 3, Nat.succ_pos 2, Nat.succ_pos 2, stacked⟩
    ∃ f, A.lu = .ok f ∧ f.lower = .ofFn ![![1, 0, 0], ![2, 1, 0], ![4, 3, 1]] ∧
      f.upper = .ofFn ![![2, 1, 1], ![0, 1, 1], ![0, 0, 2]] ∧
      (A.ofSquare f.lower).mul (A.ofSquare f.upper) = .ok A := by
  intro A
  have hrun : (stacked.lu.toOption.map fun f => (f.lower, f.upper)) =
      some (.ofFn ![![1, 0, 0], ![2, 1, 0], ![4, 3, 1]],
        .ofFn ![![2, 1, 1], ![0, 1, 1], ![0, 0, 2]]) := by decide +kernel
  cases hlu : stacked.lu with
  | error i => simp [hlu, Except.toOption] at hrun
  | ok f =>
    simp only [hlu, Except.toOption, Option.map_some, Option.some.injEq, Prod.mk.injEq] at hrun
    have h : A.lu = .ok f := lu_eq_ok_iff.mpr ⟨stacked, toSquare_mk _ _ _, hlu⟩
    obtain ⟨_, _, _, _, hprod⟩ := lu_triangular_factors A f h
    exact ⟨f, h, hrun.1, hrun.2, hprod⟩

end DenseMatrix

end DenseLinear
