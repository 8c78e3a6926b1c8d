import DenseLinear.Storage.Checked

/-!
# Sizes

A matrix of `a` rows of `b` entries needs an array of `a * b`, a number that need not be a machine
word. What comes of such a product depends on how the library is built. With checks it ends the
computation, and without them what is left of it is a remainder, so that an array turns out shorter
than the sides of its matrix say. All other sizes and places are natural numbers: in a matrix whose
array is as long as its sides say, they stay below the length of an array.
-/

namespace DenseLinear

/-- How products of sizes are computed. -/
class inductive SizeArithmetic where
  | unbounded
  | checked
  | wrapping

/-- Where nothing else is said, every natural number is a size. -/
instance unboundedSizes : SizeArithmetic := .unbounded

section

variable [sizes : SizeArithmetic]

def times (a b : Nat) : Checked Nat :=
  match sizes with
  | .unbounded => .ok (a * b)
  | .checked => if a * b < UInt64.size then .ok (a * b) else .error (.fault (.overflow a b))
  | .wrapping => .ok (a * b % UInt64.size)

/-- An array can be that long. -/
def IsSize (n : Nat) : Prop := sizes = .unbounded ∨ n < UInt64.size

def Fits (a b : Nat) : Prop := IsSize (a * b)

variable {a b c d : Nat}

theorem IsSize.of_le (h : IsSize a) (hle : b ≤ a) : IsSize b := h.imp_right (Nat.lt_of_le_of_lt hle)

theorem Fits.of_le (h : Fits a b) (hle : c * d ≤ a * b) : Fits c d := IsSize.of_le h hle

theorem Fits.symm (h : Fits a b) : Fits b a := h.of_le (Nat.mul_comm b a ▸ Nat.le_refl _)

theorem Fits.of_half (h : Fits a (2 * a)) : Fits a a :=
  h.of_le (Nat.mul_le_mul_left a (Nat.le_mul_of_pos_left a Nat.two_pos))

theorem Fits.le_of_not (h : ¬Fits a b) : UInt64.size ≤ a * b :=
  Nat.not_lt.mp fun hlt => h (.inr hlt)

theorem SizeArithmetic.cases : sizes = .unbounded ∨ sizes = .checked ∨ sizes = .wrapping := by
  cases sizes with
  | unbounded => exact .inl rfl
  | checked => exact .inr (.inl rfl)
  | wrapping => exact .inr (.inr rfl)

theorem times_of_fits (h : Fits a b) : times a b = .ok (a * b) := by
  cases sizes with
  | unbounded => rfl
  | checked => exact if_pos (h.resolve_left nofun)
  | wrapping => exact congrArg Except.ok (Nat.mod_eq_of_lt (h.resolve_left nofun))

/-- Checks leave nothing of a product that is no machine word. -/
theorem times_of_not_fits (hc : sizes = .checked) (h : ¬Fits a b) :
    times a b = .error (.fault (.overflow a b)) := by
  have hle := Fits.le_of_not h
  subst hc
  exact if_neg (Nat.not_lt.mpr hle)

theorem fits_of_times (hw : sizes ≠ .wrapping) (h : times a b = .ok c) : Fits a b := by
  rcases SizeArithmetic.cases with hu | hc | hw'
  · exact .inl hu
  · apply Classical.byContradiction
    intro hnot
    rw [times_of_not_fits hc hnot] at h
    cases h
  · exact absurd hw' hw

theorem times_wrapping (hw : sizes = .wrapping) (a b : Nat) :
    times a b = .ok (a * b % UInt64.size) := by
  subst hw
  rfl

/-- A product that is no machine word comes out smaller than it is, if it comes out at all. -/
theorem fits_of_le (h : times a b = .ok c) (hle : a * b ≤ c) : Fits a b := by
  by_cases hw : sizes = .wrapping
  · rw [times_wrapping hw] at h
    cases h
    exact .inr (Nat.lt_of_le_of_lt hle (Nat.mod_lt _ (by decide)))
  · exact fits_of_times hw h

/-- What comes of a product is the product exactly if it fits. -/
theorem eq_mul_iff_fits (h : times a b = .ok c) : c = a * b ↔ Fits a b := by
  constructor
  · intro heq
    exact fits_of_le h (Nat.le_of_eq heq.symm)
  · intro hfits
    exact Except.ok.inj (h.symm.trans (times_of_fits hfits))

end

theorem Fits.unbounded (a b : Nat) : Fits a b := .inl rfl

end DenseLinear
