import DenseLinear.Error

/-!
# Events

What an operation reports beside its answer. A traced computation collects events in order and
keeps those that came before an error.
-/

namespace DenseLinear

inductive Level where
  | trace
  | debug
  | warn
deriving Repr, DecidableEq

inductive Event (α : Type) where
  /-- Row reduction found the pivot of a column in a row. -/
  | pivot (column row : Nat)
  /-- The determinant was cut short at a step by a negligible pivot. -/
  | negligiblePivot (value : α) (step : Nat)
  /-- The eigenvalue iteration settled after so many steps. -/
  | settled (steps : Nat)
  /-- The eigenvalue iteration used up its steps. -/
  | exhausted (limit : Nat)
  /-- Diagonalization has its eigenvectors, for a square matrix of this size. -/
  | collected (found size : Nat)
deriving Repr, DecidableEq

namespace Event

variable {α : Type}

def level : Event α → Level
  | pivot .. => .trace
  | negligiblePivot .. => .debug
  | settled _ => .debug
  | exhausted _ => .warn
  | collected .. => .debug

def message (number : α → String) : Event α → String
  | pivot column row => s!"rref: column {column} pivots on row {row}"
  | negligiblePivot value step =>
    "det: pivot " ++ number value ++ s!" at step {step} is below tolerance, matrix is singular"
  | settled steps => s!"eigenvalues: QR iteration converged after {steps} steps"
  | exhausted limit =>
    s!"eigenvalues: QR iteration did not converge in {limit} steps, returning last diagonal"
  | collected found size =>
    s!"diagonalize: collected {found} eigenvectors for a {size}x{size} matrix"

end Event

/-- An answer or an error, with the events that led to it, oldest first. -/
structure Traced (α β : Type) where
  events : List (Event α)
  result : Except Error β

namespace Traced

variable {α β γ : Type}

instance : Monad (Traced α) where
  pure b := ⟨[], .ok b⟩
  bind x f := match x.result with
    | .ok b => ⟨x.events ++ (f b).events, (f b).result⟩
    | .error e => ⟨x.events, .error e⟩

instance : MonadLift (Except Error) (Traced α) := ⟨fun r => ⟨[], r⟩⟩

def report (events : List (Event α)) : Traced α Unit := ⟨events, .ok ()⟩

theorem ext {x y : Traced α β} (he : x.events = y.events) (hr : x.result = y.result) : x = y := by
  cases x
  cases y
  simp_all

@[simp] theorem events_pure (b : β) : (pure b : Traced α β).events = [] := rfl

@[simp] theorem result_pure (b : β) : (pure b : Traced α β).result = .ok b := rfl

@[simp] theorem events_lift (r : Except Error β) :
    (liftM r : Traced α β).events = [] := rfl

@[simp] theorem result_lift (r : Except Error β) :
    (liftM r : Traced α β).result = r := rfl

@[simp] theorem events_report (es : List (Event α)) : (report es).events = es := rfl

@[simp] theorem result_report (es : List (Event α)) : (report es).result = .ok () := rfl

theorem result_bind (x : Traced α β) (f : β → Traced α γ) :
    (x >>= f).result = x.result >>= fun b => (f b).result := by
  simp only [bind]
  cases x.result <;> rfl

theorem events_bind_of_ok {x : Traced α β} {b : β} (h : x.result = .ok b) (f : β → Traced α γ) :
    (x >>= f).events = x.events ++ (f b).events := by
  simp only [bind]
  simp [h]

theorem events_bind_of_error {x : Traced α β} {e : Error} (h : x.result = .error e)
    (f : β → Traced α γ) : (x >>= f).events = x.events := by
  simp only [bind]
  simp [h]

instance : LawfulMonad (Traced α) := LawfulMonad.mk' _
  (fun x => by
    rcases x with ⟨es, r⟩
    cases r with
    | error e => rfl
    | ok b => simp [Functor.map])
  (fun b f => by simp [bind, pure])
  (fun x f g => by
    rcases x with ⟨es, r⟩
    cases r with
    | error e => rfl
    | ok b =>
      simp only [bind]
      cases (f b).result <;> simp)

@[simp] theorem events_map (f : β → γ) (x : Traced α β) : (f <$> x).events = x.events := by
  rw [← bind_pure_comp]
  cases h : x.result with
  | error e => exact events_bind_of_error h _
  | ok b => rw [events_bind_of_ok h, events_pure, List.append_nil]

end Traced

end DenseLinear
