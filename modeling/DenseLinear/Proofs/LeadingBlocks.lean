import DenseLinear.Proofs.Triangular

/-!
# Leading blocks

The first `k` steps of the factorization read the leading block of size `k` alone where they decide
whether to go on. They go on exactly if the block is a product of triangular factors, and then they
find these factors, of which there is one pair at most. So the factorization takes a product of
triangular factors apart, and it is refused at the first block that is no such product.
-/

namespace DenseLinear

namespace Mat

variable {α : Type} {n k : Nat}

def leadingBlock (A : Mat α n n) (h : k ≤ n) : Mat α k k :=
  .ofFn fun r c => A (r.castLE h) (c.castLE h)

@[simp] theorem leadingBlock_apply (A : Mat α n n) (h : k ≤ n) (r c : Fin k) :
    (A.leadingBlock h) r c = A (r.castLE h) (c.castLE h) := by
  simp [leadingBlock]

@[simp] theorem leadingBlock_self (A : Mat α n n) : A.leadingBlock le_rfl = A := by
  ext r c
  simp

end Mat

namespace LU

section

variable {α : Type} {n k : Nat} {A : Mat α n n} {f : LU α n}

/-- Within the leading block, the first `j` columns and rows of `f` are those of `g`. -/
structure AgreeUpTo (h : k ≤ n) (j : Nat) (f : LU α n) (g : LU α k) : Prop where
  lower : ∀ r c : Fin k, c.val < j → f.lower (r.castLE h) (c.castLE h) = g.lower r c
  upper : ∀ r c : Fin k, r.val < j → f.upper (r.castLE h) (c.castLE h) = g.upper r c

theorem AgreeUpTo.eq {g : LU α n} (h : AgreeUpTo le_rfl n f g) : f = g := by
  cases f
  cases g
  congr 1
  · ext r c
    exact h.lower r c c.isLt
  · ext r c
    exact h.upper r c r.isLt

variable [Scalar α]

theorem AgreeUpTo.remainder_eq {h : k ≤ n} {g : LU α k} {i : Fin k} (hfg : AgreeUpTo h i f g)
    (r c : Fin k) : f.remainder A (i.castLE h) (r.castLE h) (c.castLE h) =
      g.remainder (A.leadingBlock h) i r c := by
  have hterms : (sumBefore (i.castLE h) fun p => f.lower (r.castLE h) p * f.upper p (c.castLE h)) =
      sumBefore i fun p => g.lower r p * g.upper p c := by
    apply congrArg sum
    funext p
    exact congrArg₂ (· * ·) (hfg.lower r (before i p) (before_lt i p))
      (hfg.upper (before i p) c (before_lt i p))
  unfold remainder
  rw [hterms, Mat.leadingBlock_apply]

theorem step_eq_error {i e : Fin n} (h : step A i f = .error e) : e = i := by
  simp only [step] at h
  split at h
  · cases h
    rfl
  · cases h

theorem lu_eq_error_iff_upTo {i : Fin n} : A.lu = .error i ↔
    (∃ f, upTo A i i.isLt.le = .ok f) ∧ ¬∃ f, upTo A (i + 1) i.isLt = .ok f :=
  tryAfterSteps_eq_error_iff fun _ _ _ => step_eq_error

end

variable {K : Type} [Field K] [LinearOrder K] {n k : Nat} {A : Mat K n n} {f : LU K n}

/-- A unit lower and an upper triangular factor of `A`, with the tolerance at least as the
magnitude of each pivot. -/
structure Factors (A : Mat K n n) (f : LU K n) : Prop where
  diagonal : ∀ i, f.lower i i = 1
  above : ∀ r c, r < c → f.lower r c = 0
  below : ∀ r c, c < r → f.upper r c = 0
  pivot : ∀ i, 1 / 10 ^ 10 ≤ |f.upper i i|
  mul_eq : f.lower.mul f.upper = A

/-- In row `i` and in column `i`, what the factors before leave is one product. -/
theorem Factors.remainder_eq (hf : f.Factors A) {i r c : Fin n} (h : r ≤ i ∨ c ≤ i) :
    f.remainder A i r c = f.lower r i * f.upper i c := by
  have hlater (p : Fin n) (hp : i < p) : f.lower r p * f.upper p c = 0 := by
    rcases h with hr | hc
    · rw [hf.above r p (hr.trans_lt hp), zero_mul]
    · rw [hf.below p c (hc.trans_lt hp), mul_zero]
  have hentry : A r c = ∑ p, f.lower r p * f.upper p c := by
    rw [← Mat.mul_entry, hf.mul_eq]
  rw [remainder, hentry, sum_eq_before_add_after i, sumAfter_eq_zero hlater]
  ring

theorem FactorsUpTo.leadingBlock (hf : f.FactorsUpTo A k) (h : k ≤ n) :
    Factors (A.leadingBlock h) ⟨f.lower.leadingBlock h, f.upper.leadingBlock h⟩ := by
  refine ⟨?_, ?_, ?_, ?_, ?_⟩
  · intro i
    simpa using hf.diagonal (i.castLE h) i.isLt
  · intro r c hrc
    simpa using hf.above (r.castLE h) (c.castLE h) hrc
  · intro r c hcr
    simpa using hf.below (r.castLE h) (c.castLE h) hcr
  · intro i
    simpa [negligible_iff] using hf.pivot (i.castLE h) i.isLt
  · ext r c
    have houtside (p : Fin n) (hp : p ∉ Set.range (Fin.castLE h)) :
        f.lower (r.castLE h) p * f.upper p (c.castLE h) = 0 := by
      have hkp : k ≤ p.val := by
        by_contra hlt
        exact hp ⟨⟨p, not_le.mp hlt⟩, rfl⟩
      have hrp : r.castLE h < p := Nat.lt_of_lt_of_le r.isLt hkp
      rw [hf.above _ p hrp, zero_mul]
    have hsum := Fintype.sum_of_injective (Fin.castLE h) (Fin.castLE_injective h)
      (fun p => f.lower (r.castLE h) (p.castLE h) * f.upper (p.castLE h) (c.castLE h))
      (fun p => f.lower (r.castLE h) p * f.upper p (c.castLE h)) houtside fun p => rfl
    have hproduct := hf.product (r.castLE h) (c.castLE h) (Or.inl r.isLt)
    rw [Mat.mul_entry] at hproduct ⊢
    simp only [Mat.leadingBlock_apply]
    rw [hsum, hproduct]

variable [IsStrictOrderedRing K]

/-- The pivot of a step is that of the factors of the block, so the step is accepted, and it fills
in what they hold. -/
theorem AgreeUpTo.step {h : k ≤ n} {g : LU K k} {i : Fin k} (hfg : AgreeUpTo h i f g)
    (hf : f.ShapeUpTo i) (hg : g.Factors (A.leadingBlock h)) :
    ∃ t, LU.step A (i.castLE h) f = .ok t ∧ AgreeUpTo h (i + 1) t g := by
  have hpivot : f.remainder A (i.castLE h) (i.castLE h) (i.castLE h) = g.upper i i := by
    rw [hfg.remainder_eq, hg.remainder_eq (Or.inl le_rfl), hg.diagonal, one_mul]
  have hp : ¬Negligible (g.upper i i) := not_lt.mpr (hg.pivot i)
  refine ⟨_, by rw [LU.step, hpivot, if_neg hp], ?_, ?_⟩
  · intro r c hc
    simp only [Mat.setCol_apply, Fin.castLE_inj, Fin.castLE_lt_castLE_iff]
    split_ifs with hci hri hir
    · rw [hci, hri, hg.diagonal]
    · rw [hfg.remainder_eq, hg.remainder_eq (Or.inr le_rfl),
        mul_div_cancel_right₀ _ (ne_zero_of_not_negligible hp), hci]
    · have hrc : r < c := by omega
      rw [← hci, hf.above _ _ hrc, hg.above r c hrc]
    · exact hfg.lower r c (by omega)
  · intro r c hr
    simp only [Mat.setRow_apply, Fin.castLE_inj, Fin.castLE_le_castLE_iff]
    split_ifs with hri hic
    · rw [hfg.remainder_eq, hg.remainder_eq (Or.inl le_rfl), hg.diagonal, one_mul, hri]
    · have hcr : c < r := by omega
      rw [← hri, hf.below _ _ hcr, hg.below r c hcr]
    · exact hfg.upper r c (by omega)

/-- The steps within a leading block that has factors are accepted, and they find these factors. -/
theorem Factors.upTo_agree {h : k ≤ n} {g : LU K k} (hg : g.Factors (A.leadingBlock h)) (j : Nat)
    (hj : j ≤ k) : ∃ f, upTo A j (hj.trans h) = .ok f ∧ AgreeUpTo h j f g := by
  induction j with
  | zero =>
    exact ⟨_, rfl, fun _ c hc => absurd hc (Nat.not_lt_zero c),
      fun r _ hr => absurd hr (Nat.not_lt_zero r)⟩
  | succ j ih =>
    obtain ⟨f, hf, hagree⟩ := ih (Nat.le_of_succ_le hj)
    let i : Fin k := ⟨j, hj⟩
    obtain ⟨t, ht, hnext⟩ :=
      AgreeUpTo.step (i := i) hagree (upTo_factors hf).toShapeUpTo hg
    exact ⟨t, tryAfterSteps_succ_eq_ok.mpr ⟨f, hf, ht⟩, hnext⟩

theorem exists_upTo_iff (h : k ≤ n) :
    (∃ f, upTo A k h = .ok f) ↔ ∃ g : LU K k, g.Factors (A.leadingBlock h) := by
  constructor
  · rintro ⟨f, hf⟩
    exact ⟨_, (upTo_factors hf).leadingBlock h⟩
  · rintro ⟨g, hg⟩
    obtain ⟨f, hf, _⟩ := hg.upTo_agree k le_rfl
    exact ⟨f, hf⟩

theorem lu_eq_ok_iff_factors : A.lu = .ok f ↔ f.Factors A := by
  constructor
  · intro h
    have hf := (upTo_factors h).leadingBlock le_rfl
    simpa only [Mat.leadingBlock_self] using hf
  · intro hf
    rw [← A.leadingBlock_self] at hf
    obtain ⟨t, ht, hagree⟩ := hf.upTo_agree n le_rfl
    rw [← hagree.eq]
    exact ht

theorem lu_eq_error_iff_factors {i : Fin n} : A.lu = .error i ↔
    (∃ g : LU K i, g.Factors (A.leadingBlock i.isLt.le)) ∧
      ¬∃ g : LU K (i + 1), g.Factors (A.leadingBlock (Nat.succ_le_of_lt i.isLt)) := by
  rw [lu_eq_error_iff_upTo, exists_upTo_iff, exists_upTo_iff]

end LU

namespace DenseMatrix

theorem lu_eq_error_iff {α : Type} [Scalar α] {A : DenseMatrix α} {S : Mat α A.height A.height}
    (hS : A.toSquare = .ok S) {e : Error} :
    A.lu = .error e ↔ ∃ i : Fin A.height, e = .zeroPivot i ∧ S.lu = .error i := by
  have hlu : A.lu = S.lu.mapError fun i => .zeroPivot i := by
    unfold lu
    rw [hS]
    rfl
  rw [hlu]
  cases S.lu with
  | error i => simp [Except.mapError, eq_comm]
  | ok f => simp [Except.mapError]

variable {K : Type} [Field K] [LinearOrder K] [IsStrictOrderedRing K]

/-- The triangular factors are found exactly if there are any, and they are the only ones. The
index of a refusal is the size of the largest leading block that has factors. -/
theorem lu_iff_leading_factors (A : DenseMatrix K) (S : Mat K A.height A.height)
    (hS : A.toSquare = .ok S) :
    ((∃ f, A.lu = .ok f) ↔ ∃ g : LU K A.height, g.Factors S) ∧
    (∀ f, A.lu = .ok f ↔ f.Factors S) ∧
    (∀ i, A.lu = .error (.zeroPivot i) ↔ ∃ h : i < A.height,
      (∃ g : LU K i, g.Factors (S.leadingBlock h.le)) ∧
        ¬∃ g : LU K (i + 1), g.Factors (S.leadingBlock (Nat.succ_le_of_lt h))) ∧
    ∀ e, A.lu = .error e → ∃ i < A.height, e = .zeroPivot i := by
  have hok (f : LU K A.height) : A.lu = .ok f ↔ f.Factors S := by
    rw [lu_eq_ok_iff, ← LU.lu_eq_ok_iff_factors]
    simp [hS]
  refine ⟨exists_congr hok, hok, ?_, ?_⟩
  · intro i
    rw [lu_eq_error_iff hS]
    constructor
    · rintro ⟨j, hj, h⟩
      obtain rfl : i = j := by simpa using hj
      exact ⟨j.isLt, LU.lu_eq_error_iff_factors.mp h⟩
    · rintro ⟨hi, h⟩
      exact ⟨⟨i, hi⟩, rfl, LU.lu_eq_error_iff_factors.mpr h⟩
  · intro e he
    obtain ⟨i, rfl, _⟩ := (lu_eq_error_iff hS).mp he
    exact ⟨i, i.isLt, rfl⟩

/-- Invertible, but its leading block of size two is not. -/
def unpivoted : Mat ℚ 3 3 := .ofFn ![![1, 2, 3], ![2, 4, 1], ![0, 1, 1]]

theorem lu_stacked_unpivoted :
    let A : DenseMatrix ℚ := ⟨3, 3, Nat.succ_pos 2, Nat.succ_pos 2, stacked⟩
    let B : DenseMatrix ℚ := ⟨3, 3, Nat.succ_pos 2, Nat.succ_pos 2, unpivoted⟩
    let f : LU ℚ 3 := ⟨.ofFn ![![1, 0, 0], ![2, 1, 0], ![4, 3, 1]],
      .ofFn ![![2, 1, 1], ![0, 1, 1], ![0, 0, 2]]⟩
    A.toSquare = .ok stacked ∧ f.Factors stacked ∧ A.lu = .ok f ∧
    B.toSquare = .ok unpivoted ∧ B.lu = .error (.zeroPivot 1) ∧
    (∃ g : LU ℚ 1, g.Factors (unpivoted.leadingBlock (Nat.le_add_left 1 2))) ∧
    ¬∃ g : LU ℚ 2, g.Factors (unpivoted.leadingBlock (Nat.le_succ 2)) := by
  intro A B f
  have hA : A.toSquare = .ok stacked := toSquare_mk _ _ _
  have hB : B.toSquare = .ok unpivoted := toSquare_mk _ _ _
  have hf : f.Factors stacked := by constructor <;> decide +kernel
  have hrun : (match unpivoted.lu with | .ok _ => none | .error i => some i) = some 1 := by
    decide +kernel
  obtain ⟨_, hok, _, _⟩ := lu_iff_leading_factors A stacked hA
  obtain ⟨_, _, herror, _⟩ := lu_iff_leading_factors B unpivoted hB
  have hstop : B.lu = .error (.zeroPivot 1) := by
    cases hlu : unpivoted.lu with
    | ok g => simp [hlu] at hrun
    | error i =>
      simp only [hlu, Option.some.injEq] at hrun
      exact (lu_eq_error_iff hB).mpr ⟨i, by rw [hrun]; rfl, hlu⟩
  obtain ⟨_, hone, htwo⟩ := (herror 1).mp hstop
  exact ⟨hA, hf, (hok f).mpr hf, hB, hstop, hone, htwo⟩

end DenseMatrix

end DenseLinear
