import Mathlib
import DenseLinear.Steps
import DenseLinear.Storage.Checked

/-!
# Checked computations

What a loop over a range comes to. Its states are known if those of one step are, whether the body
follows a function, a step that may fail, or a step that does not look at the index.
-/

namespace DenseLinear

variable {ε δ σ τ β γ : Type}

namespace Checked

@[simp] theorem ok_bind (b : β) (f : β → Except ε γ) : (Except.ok b >>= f) = f b := rfl

@[simp] theorem error_bind (e : ε) (f : β → Except ε γ) :
    ((Except.error e : Except ε β) >>= f) = .error e := rfl

@[simp] theorem pure_eq_ok (b : β) : (pure b : Except ε β) = .ok b := rfl

@[simp] theorem map_ok (f : β → γ) (b : β) : (f <$> (.ok b : Except ε β)) = .ok (f b) := rfl

@[simp] theorem lift_error_ok (b : β) : (liftM (.ok b : Except Error β) : Checked β) = .ok b := rfl

@[simp] theorem lift_exit_ok (b : β) : (liftM (.ok b : Checked β) : Except (Exit γ) β) = .ok b := rfl

end Checked

section

variable {start stop : Nat} {body : Nat → σ → Except ε σ} {s : σ}

theorem forRange_of_le (h : stop ≤ start) : forRange start stop body s = .ok s := by
  simp [forRange, Nat.sub_eq_zero_of_le h]

/-- A loop stops where its first step does. -/
theorem forRange_eq_error {e : ε} (h : start < stop) (hs : body start s = .error e) :
    forRange start stop body s = .error e := by
  obtain ⟨k, hk⟩ : ∃ k, stop - start = k + 1 := ⟨stop - start - 1, by omega⟩
  rw [forRange, hk, List.range'_succ, List.foldlM_cons, hs]
  rfl

theorem forRange_succ (h : start ≤ stop) :
    forRange start (stop + 1) body s = forRange start stop body s >>= body stop := by
  have hlength : stop + 1 - start = stop - start + 1 := by omega
  have hlast : start + (stop - start) = stop := by omega
  rw [forRange, hlength, List.range'_1_concat, List.foldlM_append, hlast]
  simp only [List.foldlM_cons, List.foldlM_nil, bind_pure]
  rfl

/-- The states of a loop that runs through are known if each step is known to lead from one to the
next. -/
theorem forRange_eq_ok (F : (k : Nat) → k ≤ stop → σ) (h : start ≤ stop)
    (hbody : ∀ i : Fin stop, start ≤ i → body i (F i i.is_le') = .ok (F (i + 1) i.isLt)) :
    forRange start stop body (F start h) = .ok (F stop le_rfl) := by
  induction stop, h using Nat.le_induction with
  | base => exact forRange_of_le le_rfl
  | succ stop h ih =>
    have hinit := ih (fun k hk => F k (Nat.le_succ_of_le hk)) fun i hi => hbody i.castSucc hi
    rw [forRange_succ h, hinit]
    exact hbody (Fin.last stop) h

/-- What holds at first and is kept by every step holds whenever a loop takes a step, and when it
ends. -/
theorem forRange_invariant (I : σ → Prop) (hs : I s)
    (hbody : ∀ i s t, I s → body i s = .ok t → I t) {t : σ}
    (h : forRange start stop body s = .ok t) :
    I t ∧ ∀ i, start ≤ i → i < stop → ∃ u v, I u ∧ body i u = .ok v := by
  induction stop generalizing t with
  | zero =>
    rw [forRange_of_le (Nat.zero_le _)] at h
    cases h
    exact ⟨hs, fun i _ hlt => absurd hlt i.not_lt_zero⟩
  | succ stop ih =>
    by_cases hle : start ≤ stop
    · rw [forRange_succ hle] at h
      obtain ⟨u, hu, hlast⟩ := bind_eq_ok.mp h
      obtain ⟨hI, hsteps⟩ := ih hu
      refine ⟨hbody _ _ _ hI hlast, ?_⟩
      intro i hi hlt
      rcases (Nat.lt_succ_iff.mp hlt).eq_or_lt with rfl | hlt
      · exact ⟨u, t, hI, hlast⟩
      · exact hsteps i hi hlt
    · rw [forRange_of_le (by omega)] at h
      cases h
      exact ⟨hs, fun i hi hlt => absurd hi (by omega)⟩

/-- A loop whose body does not look at its index, taken apart at the front. -/
theorem forRange_const_succ (step : σ → Except ε σ) (s : σ) (n : Nat) :
    forRange 0 (n + 1) (fun _ => step) s = step s >>= forRange 0 n (fun _ => step) := by
  induction n with
  | zero =>
    rw [forRange_succ le_rfl, forRange_of_le le_rfl]
    exact (bind_pure _).symm
  | succ n ih =>
    rw [forRange_succ (Nat.zero_le _), ih, bind_assoc]
    congr 1
    funext t
    rw [forRange_succ (Nat.zero_le n)]

/-- A loop from `start` is one from zero that does nothing at first. -/
theorem forRange_eq_zero (body : Nat → σ → Except ε σ) (s : σ) :
    forRange start stop body s =
      forRange 0 stop (fun i s => if start ≤ i then body i s else .ok s) s := by
  induction stop with
  | zero => rw [forRange_of_le (Nat.zero_le _), forRange_of_le le_rfl]
  | succ stop ih =>
    rw [forRange_succ (Nat.zero_le stop), ← ih]
    by_cases h : start ≤ stop
    · simp only [h, if_true, forRange_succ h]
    · rw [forRange_of_le (by omega), forRange_of_le (by omega)]
      simp [h]

/-- A loop whose body follows a function, on a view of its state, follows the fold. -/
theorem forRange_eq_foldl {n : Nat} {body : Nat → τ → Except ε τ} (view : σ → τ)
    (f : σ → Fin n → σ) (hbody : ∀ (i : Fin n) s, body i (view s) = .ok (view (f s i))) (s : σ) :
    forRange 0 n body (view s) = .ok (view (Fin.foldl n f s)) := by
  induction n with
  | zero => simp [forRange_of_le]
  | succ n ih =>
    rw [forRange_succ (Nat.zero_le n), ih (fun s i => f s i.castSucc) fun i s => hbody i.castSucc s,
      Fin.foldl_succ_last]
    exact hbody (Fin.last n) _

theorem forRange_eq_afterSteps {n : Nat} {step : Fin n → σ → σ} {start : σ}
    {body : Nat → τ → Except ε τ} (view : σ → τ)
    (hbody : ∀ (i : Fin n) s, body i (view s) = .ok (view (step i s))) :
    ∀ k h, forRange 0 k body (view start) = .ok (view (afterSteps step start k h))
  | 0, _ => forRange_of_le le_rfl
  | k + 1, h => by
    rw [forRange_succ (Nat.zero_le k), forRange_eq_afterSteps view hbody k (Nat.le_of_succ_le h)]
    exact hbody ⟨k, h⟩ _

theorem afterSteps_eq_foldl {n : Nat} (step : Fin n → σ → σ) (start : σ) (k : Nat) (h : k ≤ n) :
    afterSteps step start k h = Fin.foldl k (fun s i => step (i.castLE h) s) start := by
  induction k with
  | zero => rw [Fin.foldl_zero, afterSteps_zero]
  | succ k ih =>
    rw [afterSteps_succ, Fin.foldl_succ_last, ih (Nat.le_of_succ_le h)]
    rfl

/-- A loop whose body follows a step, on a view of its state, follows the whole run. -/
theorem forRange_eq_tryAfterSteps {n : Nat} {step : Fin n → σ → Except ε σ} (start : σ)
    {body : Nat → τ → Except δ τ} (view : Nat → σ → τ) (reason : ε → δ)
    (hbody : ∀ (i : Fin n) (s : σ), tryAfterSteps step start i i.isLt.le = .ok s →
      body i (view i s) = ((step i s).map (view (i + 1))).mapError reason) :
    ∀ k h, forRange 0 k body (view 0 start) =
      ((tryAfterSteps step start k h).map (view k)).mapError reason
  | 0, _ => forRange_of_le le_rfl
  | k + 1, h => by
    rw [forRange_succ (Nat.zero_le k),
      forRange_eq_tryAfterSteps start view reason hbody k (Nat.le_of_succ_le h), tryAfterSteps]
    cases hs : tryAfterSteps step start k (Nat.le_of_succ_le h) with
    | error e => rfl
    | ok s => exact hbody ⟨k, h⟩ s hs

theorem build_eq_ok {n : Nat} {f : Nat → Except ε β} {g : Fin n → β}
    (h : ∀ i : Fin n, f i = .ok (g i)) : build n f = .ok (Array.ofFn g) := by
  induction n with
  | zero => exact (forRange_of_le le_rfl).trans (by rw [Array.ofFn_zero])
  | succ n ih =>
    have hinit : build n f = .ok (Array.ofFn fun i => g i.castSucc) := ih fun i => h i.castSucc
    have hlast : f n = .ok (g (Fin.last n)) := h (Fin.last n)
    rw [build] at hinit ⊢
    rw [forRange_succ (Nat.zero_le n), hinit, Array.ofFn_succ]
    simp only [Checked.ok_bind, hlast, Checked.map_ok]
    rfl

end

end DenseLinear
