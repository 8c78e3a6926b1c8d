import DenseLinear.Decimal.Places
import DenseLinear.Decimal.Shortest

/-!
# Texts of numbers

Three ways to write a number: in full with its shortest digits, with a fixed number of decimal
places, and with an exponent after its shortest digits.
-/

namespace DenseLinear

/-- Splits off the last `n` digits; the part before them has at least one. -/
def splitDigits (digits : List Char) (n : Nat) : List Char × List Char :=
  let padded := List.replicate (n + 1 - digits.length) '0' ++ digits
  padded.splitAt (padded.length - n)

def joinPoint : List Char × List Char → List Char
  | (whole, []) => whole
  | (whole, decimals) => whole ++ '.' :: decimals

namespace Decimal

/-- The digits up to the last that is not zero, and the exponent of that digit. -/
def trimmed (d : Decimal) : List Char × Int :=
  let digits := Nat.toDigits 10 d.digits
  let zeros := digits.reverse.takeWhile (· == '0') |>.length
  (digits.take (digits.length - zeros), d.exponent + zeros)

def plain (d : Decimal) : List Char :=
  let (digits, exponent) := d.trimmed
  joinPoint (splitDigits (digits ++ List.replicate exponent.toNat '0') (-exponent).toNat)

def scientific (d : Decimal) : List Char :=
  let (digits, exponent) := d.trimmed
  joinPoint (digits.splitAt 1) ++ 'e' :: (toString (exponent + digits.length - 1)).toList

end Decimal

namespace FloatValue

def text (magnitude : Binary → List Char) : FloatValue → String
  | nan => "NaN"
  | infinite negative => sign negative ++ "inf"
  | finite negative v => sign negative ++ String.ofList (magnitude v)
where
  sign (negative : Bool) : String := if negative then "-" else ""

end FloatValue

/-- The shortest digits in full: `0.1`, `300`, `-0`. -/
def plainText (x : Float) : String :=
  (FloatValue.ofFloat x).text fun v => if v.mantissa = 0 then ['0'] else v.shortest.plain

/-- Exactly `places` decimals: `0.10`, `300.00`, `-0.00`. -/
def fixedText (places : Nat) (x : Float) : String :=
  (FloatValue.ofFloat x).text fun v =>
    joinPoint (splitDigits (Nat.toDigits 10 (v.roundPlaces places)) places)

/-- The shortest digits with an exponent: `1e-1`, `3e2`, `-0e0`. -/
def scientificText (x : Float) : String :=
  (FloatValue.ofFloat x).text fun v =>
    if v.mantissa = 0 then ['0', 'e', '0'] else v.shortest.scientific

end DenseLinear
