import DenseLinear.Mat.RowOps
import DenseLinear.Scalar

/-!
# Partial pivoting

The choice of a pivot by greatest magnitude, shared by the determinant and the inverse, and the
record of where an elimination got stuck.
-/

namespace DenseLinear

/-- The step at which even the chosen pivot was negligible, and that pivot. -/
structure Stall (α : Type) where
  step : Nat
  pivot : α

/-- Among the rows from `start` on, the first whose entry in column `c` has the greatest
magnitude. -/
def Mat.largestRow {α : Type} [Scalar α] {m n : Nat} (A : Mat α m n) (start : Fin m) (c : Fin n) :
    Fin m :=
  (List.finRange m).foldl
    (fun best r => if start < r ∧ Scalar.abs (A best c) < Scalar.abs (A r c) then r else best)
    start

/-- The choice reads the column from `start` on alone. -/
theorem Mat.largestRow_congr {α : Type} [Scalar α] {m n l : Nat} {A : Mat α m n} {B : Mat α m l}
    {start : Fin m} {c : Fin n} {d : Fin l} (h : ∀ r, start ≤ r → A r c = B r d) :
    A.largestRow start c = B.largestRow start d := by
  unfold largestRow
  generalize List.finRange m = rows
  suffices hfold : ∀ best, start ≤ best →
      rows.foldl (fun best r =>
        if start < r ∧ Scalar.abs (A best c) < Scalar.abs (A r c) then r else best) best =
      rows.foldl (fun best r =>
        if start < r ∧ Scalar.abs (B best d) < Scalar.abs (B r d) then r else best) best from
    hfold start (Nat.le_refl _)
  induction rows with
  | nil => exact fun _ _ => rfl
  | cons r rows ih =>
    intro best hbest
    simp only [List.foldl_cons]
    by_cases hr : start < r
    · simp only [hr, true_and, h best hbest, h r (Nat.le_of_lt hr)]
      apply ih
      split
      · exact Nat.le_of_lt hr
      · exact hbest
    · simp only [hr, false_and, if_false]
      exact ih best hbest

end DenseLinear
