import DenseLinear.PartialPivot
import DenseLinear.Proofs.RowEquivalence
import DenseLinear.RowReduction

/-!
# Pivot steps

Row reduction and inversion take the same step: a row is moved to its place, divided by its pivot,
and taken from all other rows so often that the column is cleared. The step makes the column a unit
column, and leaves a column alone in which both exchanged rows are zero.
-/

namespace DenseLinear.Mat

variable {K : Type} [Field K] [LinearOrder K] {m n k : Nat}

/-- Moves row `r` to `i`, divides it by `d`, and takes `factor j` times it from each other row
`j`. -/
def clearWith (A : Mat K m n) (i r : Fin m) (d : K) (factor : Fin m → K) : Mat K m n :=
  ((A.swapRows i r).divRow i d).eliminate i (· ≠ i) factor

theorem clearWith_mul (A : Mat K m k) (B : Mat K k n) (i r : Fin m) (d : K) (factor : Fin m → K) :
    (A.clearWith i r d factor).mul B = (A.mul B).clearWith i r d factor := by
  simp only [clearWith, eliminate_mul, divRow_mul, swapRows_mul]

theorem rowEquivalent_clearWith (A : Mat K m n) (i r : Fin m) {d : K} (hd : d ≠ 0)
    (factor : Fin m → K) : RowEquivalent A (A.clearWith i r d factor) :=
  ((RowEquivalent.swapRows A i r).trans (.divRow _ i hd)).trans
    (.eliminate _ (not_not.mpr rfl) factor)

/-- In a pivot step, the factors are the entries of the column after the exchange. -/
theorem pivotOn_eq_clearWith (A : Mat K m n) (i r : Fin m) (c : Fin n) :
    A.pivotOn i r c = A.clearWith i r (A r c) ((A.swapRows i r).entry · c) := by
  ext p j
  rw [pivotOn_apply, clearWith, eliminate_apply]
  by_cases h : p = i <;> simp [h]

theorem rowEquivalent_pivotOn (A : Mat K m n) (i r : Fin m) {c : Fin n} (hc : A r c ≠ 0) :
    RowEquivalent A (A.pivotOn i r c) := by
  rw [pivotOn_eq_clearWith]
  exact rowEquivalent_clearWith A i r hc _

theorem pivotOn_pivot_column (A : Mat K m n) (i r : Fin m) {c : Fin n} (hc : A r c ≠ 0)
    (p : Fin m) : (A.pivotOn i r c) p c = if p = i then 1 else 0 := by
  rw [pivotOn_apply, div_self hc]
  split_ifs
  · rfl
  · rw [mul_one, sub_self]

theorem pivotOn_column_of_zero {A : Mat K m n} {i r : Fin m} {j : Fin n} (hi : A i j = 0)
    (hr : A r j = 0) (c : Fin n) (p : Fin m) : (A.pivotOn i r c) p j = A p j := by
  rw [pivotOn_apply, hr, zero_div, mul_zero, sub_zero, swapRows_apply]
  split_ifs with hpi hpr
  · rw [hpi, hi]
  · rw [hpr, hi, hr]
  · rfl

/-- A scan that moves on to each larger value after `start` holds the largest of them. -/
theorem foldl_larger {β : Type} [LinearOrder β] (f : Fin m → β) (start : Fin m)
    (rows : List (Fin m)) (best : Fin m) (hb : start ≤ best) :
    let last := rows.foldl (fun b r => if start < r ∧ f b < f r then r else b) best
    start ≤ last ∧ f best ≤ f last ∧ ∀ r ∈ rows, start < r → f r ≤ f last := by
  induction rows generalizing best with
  | nil => exact ⟨hb, le_rfl, by simp⟩
  | cons r rows ih =>
    rw [List.foldl_cons]
    split_ifs with h
    · obtain ⟨hs, hr, hall⟩ := ih r h.1.le
      refine ⟨hs, h.2.le.trans hr, ?_⟩
      intro p hp hsp
      rcases List.mem_cons.mp hp with rfl | hp
      · exact hr
      · exact hall p hp hsp
    · obtain ⟨hs, hbest, hall⟩ := ih best hb
      refine ⟨hs, hbest, ?_⟩
      intro p hp hsp
      rcases List.mem_cons.mp hp with rfl | hp
      · exact (not_lt.mp fun hlt => h ⟨hsp, hlt⟩).trans hbest
      · exact hall p hp hsp

theorem le_largestRow (A : Mat K m n) (start : Fin m) (c : Fin n) :
    start ≤ A.largestRow start c :=
  (foldl_larger (fun r => |A r c|) start (List.finRange m) start le_rfl).1

theorem abs_le_largestRow (A : Mat K m n) (start : Fin m) (c : Fin n) {r : Fin m}
    (hr : start ≤ r) : |A r c| ≤ |A (A.largestRow start c) c| := by
  obtain ⟨_, hstart, hall⟩ :=
    foldl_larger (fun r => |A r c|) start (List.finRange m) start le_rfl
  rcases hr.eq_or_lt with rfl | hlt
  · exact hstart
  · exact hall r (List.mem_finRange r) hlt

/-- The chosen pivot is negligible exactly if all its candidates are. -/
theorem negligible_largestRow_iff (A : Mat K m n) (start : Fin m) (c : Fin n) :
    Negligible (A (A.largestRow start c) c) ↔ ∀ r, start ≤ r → |A r c| < 1 / 10 ^ 10 := by
  rw [negligible_iff]
  constructor
  · intro h r hr
    exact lt_of_le_of_lt (A.abs_le_largestRow start c hr) h
  · intro h
    exact h _ (A.le_largestRow start c)

end DenseLinear.Mat
