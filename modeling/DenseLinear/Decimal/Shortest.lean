import DenseLinear.Decimal.Binary

/-!
# Shortest digits

The decimal with the fewest digits that rounds to a given binary value; of those, the nearest. All
comparisons are between integers: both sides are scaled by powers of two and ten.
-/

namespace DenseLinear

structure Decimal where
  digits : Nat
  exponent : Int
deriving Repr, DecidableEq

namespace Binary

/-- The distance down to the end of the rounding interval, in quarters of the last place. It is
half as long below a power of two, where the values lie closer. -/
def lowerGap (v : Binary) : Nat :=
  if v.mantissa = 0x10000000000000 ∧ -1074 < v.exponent then 1 else 2

/-- The factor of the decimal side when `d * 10 ^ k` is compared with quarters of the last place. -/
def decimalFactor (v : Binary) (k : Int) : Nat := Nat.pow 10 k.toNat <<< (2 - v.exponent).toNat

/-- The factor of the binary side in the same comparison. -/
def binaryFactor (v : Binary) (k : Int) : Nat := Nat.pow 10 (-k).toNat <<< (v.exponent - 2).toNat

/-- The decimal `d * 10 ^ k` rounds to `v`. The ends of the interval belong to `v` if its mantissa
is even. -/
def Rounds (v : Binary) (k : Int) (d : Nat) : Prop :=
  let x := d * v.decimalFactor k
  let low := (4 * v.mantissa - v.lowerGap) * v.binaryFactor k
  let high := (4 * v.mantissa + 2) * v.binaryFactor k
  if v.mantissa % 2 = 0 then low ≤ x ∧ x ≤ high else low < x ∧ x < high

instance (v : Binary) (k : Int) (d : Nat) : Decidable (v.Rounds k d) := by
  unfold Rounds
  infer_instance

/-- The whole number of steps of `10 ^ k` below `v`. -/
def floorOn (v : Binary) (k : Int) : Nat :=
  4 * v.mantissa * v.binaryFactor k / v.decimalFactor k

/-- The neighbour of `v` on the grid of `10 ^ k` that rounds to `v`. Of two the nearer, and the
upper one if they are equally near. -/
def nearestOn (v : Binary) (k : Int) : Option Nat :=
  let d := v.floorOn k
  let x := 4 * v.mantissa * v.binaryFactor k
  if v.Rounds k d then
    if v.Rounds k (d + 1) ∧ (2 * d + 1) * v.decimalFactor k ≤ 2 * x then some (d + 1) else some d
  else if v.Rounds k (d + 1) then some (d + 1) else none

/-- The exponent of the leading decimal digit of `v`, if `v` is not zero. -/
def leadingPlace (v : Binary) : Int :=
  let top := v.mantissa <<< v.exponent.toNat
  let bottom := 1 <<< (-v.exponent).toNat
  if bottom ≤ top then (Nat.toDigits 10 (top / bottom)).length - 1
  else -(Nat.toDigits 10 (bottom / top)).length

/-- The fewest digits that round to `v`; seventeen are always enough. -/
def shortest (v : Binary) : Decimal :=
  let place := v.leadingPlace
  let found := (List.range 17).findSome? fun n : Nat =>
    (v.nearestOn (place - n)).map fun d => Decimal.mk d (place - n)
  found.getD ⟨v.floorOn (place - 16), place - 16⟩

end Binary

end DenseLinear
