import DenseLinear.Proofs.Storage.Checked
import DenseLinear.Storage.Elimination
import DenseLinear.Storage.Orthogonal

/-!
# Faults in storage

What only reads and writes places answers or runs into a fault, and is not refused. A matrix that a
loop only writes to has no say in the rest of what the loop does: with another one in its place, the
loop does the same until one of them has no place to write to.
-/

namespace DenseLinear

variable {α β γ σ : Type}

/-- A computation that answers or runs into a fault. -/
def Unrefused (x : Checked β) : Prop := ∀ e, x ≠ .error (.refused e)

theorem unrefused_ok (b : β) : Unrefused (.ok b) := fun _ => nofun

theorem unrefused_fault (f : Fault) : Unrefused (.error (.fault f) : Checked β) := by
  intro e h
  cases h

namespace Unrefused

variable {x y : Checked β}

theorem bind {f : β → Checked γ} (hx : Unrefused x) (hf : ∀ b, Unrefused (f b)) :
    Unrefused (x >>= f) := by
  cases x with
  | ok b => exact hf b
  | error s =>
    intro e he
    cases he
    exact hx e rfl

theorem ite {p : Prop} [Decidable p] (hx : Unrefused x) (hy : Unrefused y) :
    Unrefused (if p then x else y) := by
  split_ifs
  · exact hx
  · exact hy

theorem forRange {start stop : Nat} {body : Nat → σ → Checked σ}
    (h : ∀ i s, Unrefused (body i s)) (s : σ) : Unrefused (forRange start stop body s) := by
  induction stop with
  | zero =>
    rw [forRange_of_le (Nat.zero_le _)]
    exact unrefused_ok s
  | succ stop ih =>
    by_cases hle : start ≤ stop
    · rw [forRange_succ hle]
      exact ih.bind (h stop)
    · rw [forRange_of_le (by omega)]
      exact unrefused_ok s

theorem exists_fault (h : Unrefused x) (hx : ∀ b, x ≠ .ok b) : ∃ f, x = .error (.fault f) := by
  cases x with
  | ok b => exact absurd rfl (hx b)
  | error s =>
    cases s with
    | refused e => exact absurd rfl (h e)
    | fault f => exact ⟨f, rfl⟩

end Unrefused

theorem unrefused_fetch (x : Array α) (p : Nat) : Unrefused (fetch x p) := by
  rw [fetch]
  split_ifs
  · exact unrefused_ok _
  · exact unrefused_fault _

theorem unrefused_store (x : Array α) (p : Nat) (a : α) : Unrefused (store x p a) := by
  rw [store]
  split_ifs
  · exact unrefused_ok _
  · exact unrefused_fault _

theorem unrefused_slice (x : Array α) (start stop : Nat) : Unrefused (slice x start stop) :=
  (unrefused_ok _).ite (unrefused_fault _)

theorem unrefused_times [sizes : SizeArithmetic] (a b : Nat) : Unrefused (times a b) := by
  cases sizes with
  | unbounded => exact unrefused_ok _
  | checked => exact (unrefused_ok _).ite (unrefused_fault _)
  | wrapping => exact unrefused_ok _

namespace Stored

variable (M : Stored α)

theorem unrefused_read (i j : Nat) : Unrefused (M.read i j) := unrefused_fetch _ _

theorem unrefused_write (i j : Nat) (a : α) : Unrefused (M.write i j a) :=
  (unrefused_store _ _ _).bind fun _ => unrefused_ok _

theorem unrefused_setEntry (i j : Nat) (a : α) : Unrefused (M.setEntry i j a) :=
  (M.unrefused_write i j a).ite (unrefused_fault _)

theorem unrefused_row (i : Nat) : Unrefused (M.row i) := unrefused_slice _ _ _

theorem unrefused_setRowStart (i k : Nat) (x : Array α) : Unrefused (M.setRowStart i k x) := by
  refine (M.unrefused_row i).bind fun row => (unrefused_slice row 0 k).bind fun _ => ?_
  exact (Unrefused.forRange (fun j N => (unrefused_fetch x j).bind (N.unrefused_write i j)) M).ite
    (unrefused_fault _)

section

variable [SizeArithmetic]

theorem unrefused_zeros [Zero α] (r c : Nat) : Unrefused (zeros r c : Checked (Stored α)) :=
  ((unrefused_times r c).bind fun _ => unrefused_ok _).ite (unrefused_fault _)

theorem unrefused_augment [Scalar α] (n : Nat) : Unrefused (M.augment n) := by
  refine (unrefused_times 2 n).bind fun width => (unrefused_zeros n width).bind fun Z => ?_
  refine Unrefused.forRange (fun i N => ?_) Z
  exact (M.unrefused_row i).bind fun row =>
    (N.unrefused_setRowStart i n row).bind fun P => P.unrefused_setEntry i (n + i) 1

end

end Stored

/-- But for a matrix beside what they lead to, the computations do the same, or one of them runs into
a fault. -/
def AlikeUntilFault (x y : Checked (σ × Stored α)) : Prop :=
  (∃ f, x = .error (.fault f)) ∨ (∃ f, y = .error (.fault f)) ∨ x.map Prod.fst = y.map Prod.fst

namespace AlikeUntilFault

theorem ok (s : σ) (R S : Stored α) : AlikeUntilFault (.ok (s, R)) (.ok (s, S)) := .inr (.inr rfl)

theorem error (s : Stop) : AlikeUntilFault (.error s : Checked (σ × Stored α)) (.error s) :=
  .inr (.inr rfl)

theorem bind_same {z : Checked β} {f g : β → Checked (σ × Stored α)}
    (h : ∀ b, AlikeUntilFault (f b) (g b)) : AlikeUntilFault (z >>= f) (z >>= g) := by
  cases z with
  | error s => exact .error s
  | ok b => exact h b

theorem bind_unrefused {u v : Checked β} {f g : β → Checked (σ × Stored α)} (hu : Unrefused u)
    (hv : Unrefused v) (h : ∀ b c, AlikeUntilFault (f b) (g c)) :
    AlikeUntilFault (u >>= f) (v >>= g) := by
  cases hb : u with
  | error s =>
    obtain ⟨t, ht⟩ := hu.exists_fault (by rw [hb]; exact fun _ => nofun)
    rw [hb] at ht
    cases ht
    exact .inl ⟨t, rfl⟩
  | ok b =>
    cases hc : v with
    | error s =>
      obtain ⟨t, ht⟩ := hv.exists_fault (by rw [hc]; exact fun _ => nofun)
      rw [hc] at ht
      cases ht
      exact .inr (.inl ⟨t, rfl⟩)
    | ok c => exact h b c

theorem bind {τ : Type} {x y : Checked (τ × Stored α)} {f g : τ × Stored α → Checked (σ × Stored α)}
    (hxy : AlikeUntilFault x y) (h : ∀ s R S, AlikeUntilFault (f (s, R)) (g (s, S))) :
    AlikeUntilFault (x >>= f) (y >>= g) := by
  rcases hxy with ⟨t, rfl⟩ | ⟨t, rfl⟩ | hsame
  · exact .inl ⟨t, rfl⟩
  · exact .inr (.inl ⟨t, rfl⟩)
  · cases x with
    | error s =>
      cases y with
      | error t =>
        cases hsame
        exact .error s
      | ok d => cases hsame
    | ok c =>
      cases y with
      | error t => cases hsame
      | ok d =>
        obtain ⟨s, R⟩ := c
        obtain ⟨t, S⟩ := d
        cases hsame
        exact h s R S

theorem forRange {n : Nat} {body : Nat → σ × Stored α → Checked (σ × Stored α)}
    (h : ∀ i s R S, AlikeUntilFault (body i (s, R)) (body i (s, S))) (s : σ) (R S : Stored α) :
    AlikeUntilFault (forRange 0 n body (s, R)) (forRange 0 n body (s, S)) := by
  induction n with
  | zero =>
    rw [forRange_of_le le_rfl, forRange_of_le le_rfl]
    exact .ok s R S
  | succ n ih =>
    rw [forRange_succ (Nat.zero_le n), forRange_succ (Nat.zero_le n)]
    exact ih.bind (h n)

end AlikeUntilFault

namespace Stored

variable [RootScalar α] (R S : Stored α)

theorem orthogonalStep_alike (q : Array (Array α)) (a : Array α) (i j : Nat) (v : Array α) :
    AlikeUntilFault (orthogonalStep q a i j (v, R)) (orthogonalStep q a i j (v, S)) := by
  refine .bind_same fun column => .bind_same fun coeff => ?_
  refine .bind_unrefused (R.unrefused_setEntry j i coeff) (S.unrefused_setEntry j i coeff) ?_
  intro R' S'
  exact .bind_same fun v => .ok v R' S'

theorem qrStep_alike (columns : Array (Array α)) (i : Nat) (V : Array (Array α)) :
    AlikeUntilFault (qrStep columns i (V, R)) (qrStep columns i (V, S)) := by
  refine .bind_same fun a => .bind (.forRange (fun j v R S => R.orthogonalStep_alike S V a i j v)
    a R S) ?_
  intro v R S
  refine .bind_same fun length => ?_
  dsimp only
  split_ifs
  · exact .error _
  · refine .bind_unrefused (R.unrefused_setEntry i i length) (S.unrefused_setEntry i i length) ?_
    intro R' S'
    exact .ok _ R' S'

end Stored

end DenseLinear
