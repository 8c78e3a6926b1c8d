import DenseLinear.Scalar

/-!
# Rounding to decimal places

A number is scaled by a power of ten, rounded to a whole number, and scaled back, each step with
the rounding of the machine. Negligible numbers become zero.
-/

namespace DenseLinear

/-- The nearest whole number; a half goes away from zero. The sign is kept, also of a zero. From
`2 ^ 52` on every number is whole. -/
def roundHalfAway (x : Float) : Float :=
  if x.abs < 4503599627370496 then
    let whole := x.abs.toUInt64.toFloat
    let rounded := if x.abs - whole < 0.5 then whole else whole + 1
    if x.toBits >>> 63 = 1 then -rounded else rounded
  else x

/-- The power `x ^ n`, by squaring along the binary digits of `n` from the last to the first. -/
def power (x : Float) (n : Nat) : Float :=
  let digits := (List.range (n.log2 + 1)).map n.testBit
  let (result, _) := digits.foldl (fun (r, p) bit => (if bit then r * p else r, p * p)) (1, x)
  result

/-- The power of ten by which a number with `decimals` places is scaled. -/
def decimalScale (decimals : Int) : Float :=
  let p := power 10 decimals.natAbs
  if decimals < 0 then 1 / p else p

/-- Rounds to `decimals` places, or to tens, hundreds and so on if `decimals` is negative. -/
def roundTo (decimals : Int) (x : Float) : Float :=
  if Negligible x then 0 else roundHalfAway (x * decimalScale decimals) / decimalScale decimals

end DenseLinear
