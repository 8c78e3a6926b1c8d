import DenseLinear.Decimal.Text
import DenseLinear.Dense.Access
import DenseLinear.Rounding

/-!
# Texts of matrices

A matrix of one row is written on one line, any other with a line for each row.
-/

namespace DenseLinear

def rowText {α : Type} (number : α → String) (row : List α) : List Char :=
  '[' :: List.intercalate [',', ' '] (row.map fun x => (number x).toList) ++ [']']

namespace DenseMatrix

variable {α : Type}

/-- The text of a matrix; `number` writes an entry. -/
def text (number : α → String) (A : DenseMatrix α) : String :=
  let rows := A.rows.toList.map fun row => rowText number row.toList
  let body := match rows with
    | [row] => row
    | _ => '\n' :: List.intercalate [',', '\n'] (rows.map ([' ', ' '] ++ ·)) ++ ['\n']
  "matrix([" ++ String.ofList body ++ "])"

/-- The text with entries in full, or with a number of decimal places if one is given. -/
def display (places : Option Nat) (A : DenseMatrix Float) : String :=
  A.text (places.elim plainText fixedText)

def round (decimals : Int) (A : DenseMatrix Float) : DenseMatrix Float := A.map (roundTo decimals)

end DenseMatrix

end DenseLinear
