import DenseLinear.Decimal.Binary

/-!
# Fixed places

A binary value as a whole number of steps of `10 ^ -p`.
-/

namespace DenseLinear

def divRoundEven (num den : Nat) : Nat :=
  let q := num / den
  let r := num % den
  if 2 * r < den then q else if den < 2 * r then q + 1 else q + q % 2

/-- The value in steps of `10 ^ -places`. -/
def Binary.roundPlaces (v : Binary) (places : Nat) : Nat :=
  divRoundEven ((v.mantissa * Nat.pow 10 places) <<< v.exponent.toNat) (1 <<< (-v.exponent).toNat)

end DenseLinear
