import DenseLinear.Error

/-!
# Checked computations

A computation that stops at the first access outside of its storage, at the first call of an
operation outside its domain, at the first size that is too large, and at the first error of an
operation it calls. The loops here count through a range, and may be left early with an answer.
-/

namespace DenseLinear

/-- What a correct computation never runs into. -/
inductive Fault where
  | index (place size : Nat)
  | range (start stop size : Nat)
  | lengths (left right : Nat)
  | emptyChunks
  /-- The product of two sizes is no machine word. -/
  | overflow (left right : Nat)
  | misuse (cause : Misuse)
deriving DecidableEq

/-- Why a computation has no answer. -/
inductive Stop where
  | refused (e : Error)
  | fault (f : Fault)
deriving DecidableEq

abbrev Checked (β : Type) := Except Stop β

/-- Why a loop was left before its end. -/
inductive Exit (β : Type) where
  | answer (b : β)
  | stop (s : Stop)

instance : MonadLift (Except Error) (Except Stop) := ⟨Except.mapError .refused⟩

instance : MonadLift (Except Misuse) (Except Stop) := ⟨Except.mapError fun m => .fault (.misuse m)⟩

instance {β : Type} : MonadLift (Except Stop) (Except (Exit β)) := ⟨Except.mapError .stop⟩

variable {ε σ β : Type}

/-- What a loop leads to that answers with `b` when it is left early. -/
def Exit.close (finish : σ → Checked β) : Except (Exit β) σ → Checked β
  | .ok s => finish s
  | .error (.answer b) => .ok b
  | .error (.stop s) => .error s

/-- Runs the body at `start`, `start + 1` and so on, up to `stop` exclusively. -/
def forRange (start stop : Nat) (body : Nat → σ → Except ε σ) (s : σ) : Except ε σ :=
  (List.range' start (stop - start)).foldlM (fun s i => body i s) s

/-- Collects the values at `0`, `1` and so on, `n` of them. -/
def build (n : Nat) (f : Nat → Except ε β) : Except ε (Array β) :=
  forRange 0 n (fun i x => x.push <$> f i) #[]

end DenseLinear
