/-!
# Stepwise computations

An algorithm that takes one step for each index below `n` is given by its step and its start. The
state after the first `k` steps is a value of its own, so an invariant is an induction on `k`.
-/

namespace DenseLinear

variable {σ ε : Type} {n : Nat}

/-- The state after the first `k` steps. -/
def afterSteps (step : Fin n → σ → σ) (start : σ) : (k : Nat) → k ≤ n → σ
  | 0, _ => start
  | k + 1, h => step ⟨k, h⟩ (afterSteps step start k (Nat.le_of_succ_le h))

/-- The state after the first `k` steps, or the reason why one of them was refused. -/
def tryAfterSteps (step : Fin n → σ → Except ε σ) (start : σ) : (k : Nat) → k ≤ n → Except ε σ
  | 0, _ => .ok start
  | k + 1, h => tryAfterSteps step start k (Nat.le_of_succ_le h) >>= step ⟨k, h⟩

theorem lt_or_eq_of_lt_succ {i j : Fin n} (h : j.val < i + 1) : j < i ∨ j = i :=
  (Nat.lt_succ_iff_lt_or_eq.mp h).imp id Fin.ext

theorem exists_eq_ok_of_isOk {x : Except ε σ} (h : x.isOk) : ∃ s, x = .ok s := by
  cases x with
  | error e => nomatch h
  | ok s => exact ⟨s, rfl⟩

theorem bind_eq_ok {τ : Type} {x : Except ε σ} {f : σ → Except ε τ} {t : τ} :
    x >>= f = .ok t ↔ ∃ s, x = .ok s ∧ f s = .ok t := by
  cases x <;> simp [bind, Except.bind]

theorem afterSteps_zero (step : Fin n → σ → σ) (start : σ) (h : 0 ≤ n) :
    afterSteps step start 0 h = start := rfl

theorem afterSteps_succ (step : Fin n → σ → σ) (start : σ) {k : Nat} (h : k + 1 ≤ n) :
    afterSteps step start (k + 1) h =
      step ⟨k, h⟩ (afterSteps step start k (Nat.le_of_succ_le h)) := rfl

/-- What holds at the start and is kept by every step holds after any number of them. -/
theorem afterSteps_induction {step : Fin n → σ → σ} {start : σ} (P : Nat → σ → Prop)
    (zero : P 0 start) (succ : ∀ (k : Fin n) s, P k s → P (k + 1) (step k s)) :
    ∀ k h, P k (afterSteps step start k h)
  | 0, _ => zero
  | k + 1, h => succ ⟨k, h⟩ _ (afterSteps_induction P zero succ k (Nat.le_of_succ_le h))

theorem tryAfterSteps_succ_eq_ok {step : Fin n → σ → Except ε σ} {start s : σ} {k : Nat}
    {h : k + 1 ≤ n} : tryAfterSteps step start (k + 1) h = .ok s ↔
      ∃ r, tryAfterSteps step start k (Nat.le_of_succ_le h) = .ok r ∧ step ⟨k, h⟩ r = .ok s := by
  rw [tryAfterSteps]
  exact bind_eq_ok

/-- What holds at the start and is kept by every accepted step holds of any state reached. -/
theorem tryAfterSteps_induction {step : Fin n → σ → Except ε σ} {start : σ} (P : Nat → σ → Prop)
    (zero : P 0 start)
    (succ : ∀ (k : Fin n) s t, P k s → step k s = .ok t → P (k + 1) t) :
    ∀ {k h s}, tryAfterSteps step start k h = .ok s → P k s
  | 0, _, s, e => by
    cases e
    exact zero
  | k + 1, h, s, e => by
    obtain ⟨r, hr, hs⟩ := tryAfterSteps_succ_eq_ok.1 e
    exact succ ⟨k, h⟩ r s (tryAfterSteps_induction P zero succ hr) hs

/-- A run is accepted if each step is, from every state in which what it keeps holds. -/
theorem exists_tryAfterSteps {step : Fin n → σ → Except ε σ} {start : σ} (P : Nat → σ → Prop)
    (zero : P 0 start)
    (succ : ∀ (k : Fin n) s, P k s → ∃ t, step k s = .ok t ∧ P (k + 1) t) :
    ∀ k h, ∃ s, tryAfterSteps step start k h = .ok s ∧ P k s
  | 0, _ => ⟨start, rfl, zero⟩
  | k + 1, h => by
    obtain ⟨s, hs, hP⟩ := exists_tryAfterSteps P zero succ k (Nat.le_of_succ_le h)
    obtain ⟨t, ht, hP'⟩ := succ ⟨k, h⟩ s hP
    exact ⟨t, tryAfterSteps_succ_eq_ok.2 ⟨s, hs, ht⟩, hP'⟩

/-- Two computations are refused for the same reason, or accepted with related results. -/
inductive InStep {τ : Type} (R : σ → τ → Prop) : Except ε σ → Except ε τ → Prop where
  | refused (e : ε) : InStep R (.error e) (.error e)
  | accepted {s : σ} {t : τ} (h : R s t) : InStep R (.ok s) (.ok t)

theorem InStep.error_iff {τ : Type} {R : σ → τ → Prop} {x : Except ε σ} {y : Except ε τ}
    (h : InStep R x y) (e : ε) : x = .error e ↔ y = .error e := by
  cases h with
  | refused => simp
  | accepted => simp

theorem InStep.related {τ : Type} {R : σ → τ → Prop} {s : σ} {t : τ}
    (h : InStep R (.ok s : Except ε σ) (.ok t)) : R s t := by
  cases h with
  | accepted h => exact h

/-- Two runs whose steps keep in step from related states keep in step as a whole. -/
theorem tryAfterSteps_inStep {τ : Type} {step : Fin n → σ → Except ε σ}
    {step' : Fin n → τ → Except ε τ} {start : σ} {start' : τ} (R : Nat → σ → τ → Prop)
    (zero : R 0 start start')
    (succ : ∀ (k : Fin n) s t, R k s t → InStep (R (k + 1)) (step k s) (step' k t)) :
    ∀ k h, InStep (R k) (tryAfterSteps step start k h) (tryAfterSteps step' start' k h)
  | 0, _ => .accepted zero
  | k + 1, h => by
    have ih := tryAfterSteps_inStep R zero succ k (Nat.le_of_succ_le h)
    rw [tryAfterSteps, tryAfterSteps]
    generalize tryAfterSteps step start k _ = x at ih
    generalize tryAfterSteps step' start' k _ = y at ih
    cases ih with
    | refused e => exact .refused e
    | accepted hst => exact succ ⟨k, h⟩ _ _ hst

/-- A run that is refused was refused at one of its steps, in a state it had reached. -/
theorem tryAfterSteps_eq_error {step : Fin n → σ → Except ε σ} {start : σ} {e : ε} :
    ∀ {k h}, tryAfterSteps step start k h = .error e →
      ∃ (i : Fin n) (s : σ), i.val < k ∧ tryAfterSteps step start i (Nat.le_of_lt i.isLt) = .ok s ∧
        step i s = .error e
  | 0, _, he => nomatch he
  | k + 1, h, he => by
    cases hr : tryAfterSteps step start k (Nat.le_of_succ_le h) with
    | error e' =>
      have : e' = e := by simpa [tryAfterSteps, hr, bind, Except.bind] using he
      subst this
      obtain ⟨i, s, hi, hs, h'⟩ := tryAfterSteps_eq_error hr
      exact ⟨i, s, Nat.lt_succ_of_lt hi, hs, h'⟩
    | ok s =>
      refine ⟨⟨k, h⟩, s, Nat.lt_succ_self k, hr, ?_⟩
      simpa [tryAfterSteps, hr, bind, Except.bind] using he

/-- A run that meets a refused step is refused for its reason. -/
theorem tryAfterSteps_error_of_step {step : Fin n → σ → Except ε σ} {start s : σ} {e : ε} {i : Fin n}
    (hs : tryAfterSteps step start i (Nat.le_of_lt i.isLt) = .ok s) (he : step i s = .error e) :
    ∀ {k h}, i.val < k → tryAfterSteps step start k h = .error e
  | k + 1, h, hik => by
    rw [tryAfterSteps]
    rcases Nat.lt_succ_iff_lt_or_eq.1 hik with hlt | heq
    · rw [tryAfterSteps_error_of_step hs he hlt]
      rfl
    · have hi : i = ⟨k, h⟩ := Fin.ext heq
      subst hi
      rw [hs]
      exact he

/-- A run whose steps give themselves as the reason is refused for `i` exactly if it is accepted up
to `i` and not beyond. -/
theorem tryAfterSteps_eq_error_iff {step : Fin n → σ → Except (Fin n) σ} {start : σ}
    (hself : ∀ i s e, step i s = .error e → e = i) {i : Fin n} :
    tryAfterSteps step start n (Nat.le_refl n) = .error i ↔
      (∃ s, tryAfterSteps step start i (Nat.le_of_lt i.isLt) = .ok s) ∧
        ¬∃ s, tryAfterSteps step start (i + 1) i.isLt = .ok s := by
  constructor
  · intro h
    obtain ⟨j, s, _, hs, hstep⟩ := tryAfterSteps_eq_error h
    obtain rfl := hself _ _ _ hstep
    refine ⟨⟨s, hs⟩, ?_⟩
    rintro ⟨t, ht⟩
    obtain ⟨s', hs', hstep'⟩ := tryAfterSteps_succ_eq_ok.1 ht
    obtain rfl : s' = s := Except.ok.inj (hs'.symm.trans hs)
    cases hstep.symm.trans hstep'
  · rintro ⟨⟨s, hs⟩, hstop⟩
    cases hstep : step i s with
    | ok t => exact absurd ⟨t, tryAfterSteps_succ_eq_ok.2 ⟨s, hs, hstep⟩⟩ hstop
    | error j =>
      obtain rfl := hself _ _ _ hstep
      exact tryAfterSteps_error_of_step hs hstep j.isLt

end DenseLinear
