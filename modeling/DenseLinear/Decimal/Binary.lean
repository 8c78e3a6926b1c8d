/-!
# Binary values

What a binary64 number stands for, read off its bits: a sign, and an integer times a power of two.
-/

namespace DenseLinear

structure Binary where
  mantissa : Nat
  exponent : Int
deriving Repr, DecidableEq

inductive FloatValue where
  | nan
  | infinite (negative : Bool)
  | finite (negative : Bool) (magnitude : Binary)
deriving Repr, DecidableEq

namespace FloatValue

/-- The value of 64 bits: a sign, eleven bits of exponent, and the rest of the mantissa, whose first
bit is implied unless the exponent is the least. -/
def ofBits (bits : Nat) : FloatValue :=
  let negative := bits >>> 63 == 1
  let exponent : Nat := (bits >>> 52) % 0x800
  let fraction : Nat := bits % 0x10000000000000
  if exponent = 0x7ff then if fraction = 0 then infinite negative else nan
  else if exponent = 0 then finite negative ⟨fraction, -1074⟩
  else finite negative ⟨0x10000000000000 + fraction, (exponent : Int) - 1075⟩

def ofFloat (x : Float) : FloatValue := ofBits x.toBits.toNat

end FloatValue

end DenseLinear
