import DenseLinear.Proofs.MachineNumbers
import DenseLinear.Proofs.ZeroText

/-!
# Shortest digits

The decimals that round to a number lie in an interval around it, measured here in quarters of its
last place. Two intervals share no decimal: they meet in an end at most, and then one of the two
mantissas is odd and its interval has no ends. A step of the seventeenth digit is narrower than the
interval, so a neighbour on that grid always rounds to the number, and so do the digits found.
-/

namespace DenseLinear.Binary

open Binary64 (Canonical)

variable {v w : Binary} {k : Int} {d : Nat} {q : ℚ}

/-- A rational number in quarters of the last place of `v`. -/
def quarters (v : Binary) (q : ℚ) : ℚ := q * 2 ^ (2 - v.exponent)

/-- The rounding interval of `v` contains `q`. -/
def Covers (v : Binary) (q : ℚ) : Prop :=
  if v.mantissa % 2 = 0 then
    4 * v.mantissa - v.lowerGap ≤ v.quarters q ∧ v.quarters q ≤ 4 * v.mantissa + 2
  else 4 * v.mantissa - v.lowerGap < v.quarters q ∧ v.quarters q < 4 * v.mantissa + 2

theorem quarters_mul_binaryFactor (v : Binary) (d : Nat) (k : Int) :
    v.quarters (d * 10 ^ k) * v.binaryFactor k = d * v.decimalFactor k := by
  rw [decimalFactor_eq, quarters]
  ring

theorem rounds_iff_covers (h : v.mantissa ≠ 0) : v.Rounds k d ↔ v.Covers (d * 10 ^ k) := by
  have hgap : v.lowerGap ≤ 4 * v.mantissa := v.lowerGap_le.trans (by omega)
  have hpos : (0 : ℚ) < v.binaryFactor k := mod_cast v.binaryFactor_pos k
  have hle (a : Nat) : a * v.binaryFactor k ≤ d * v.decimalFactor k ↔
      (a : ℚ) ≤ v.quarters (d * 10 ^ k) := by
    rw [← Nat.cast_le (α := ℚ), Nat.cast_mul, Nat.cast_mul, ← quarters_mul_binaryFactor,
      mul_le_mul_iff_left₀ hpos]
  have hge (a : Nat) : d * v.decimalFactor k ≤ a * v.binaryFactor k ↔
      v.quarters (d * 10 ^ k) ≤ a := by
    rw [← Nat.cast_le (α := ℚ), Nat.cast_mul, Nat.cast_mul, ← quarters_mul_binaryFactor,
      mul_le_mul_iff_left₀ hpos]
  simp only [Rounds, Covers, ← not_le, hle, hge, Nat.cast_sub hgap, Nat.cast_add, Nat.cast_mul,
    Nat.cast_ofNat]

theorem Covers.bounds (h : v.Covers q) :
    4 * v.mantissa - v.lowerGap ≤ v.quarters q ∧ v.quarters q ≤ 4 * v.mantissa + 2 := by
  unfold Covers at h
  split_ifs at h
  · exact h
  · exact ⟨h.1.le, h.2.le⟩

theorem Covers.bounds_of_odd (h : v.Covers q) (hodd : v.mantissa % 2 = 1) :
    4 * v.mantissa - v.lowerGap < v.quarters q ∧ v.quarters q < 4 * v.mantissa + 2 := by
  unfold Covers at h
  rwa [if_neg (by omega)] at h

theorem covers_of_lt (hlow : 4 * v.mantissa - v.lowerGap < v.quarters q)
    (hhigh : v.quarters q < 4 * v.mantissa + 2) : v.Covers q := by
  unfold Covers
  split_ifs
  · exact ⟨hlow.le, hhigh.le⟩
  · exact ⟨hlow, hhigh⟩

theorem not_covers_of_mantissa_lt (he : v.exponent = w.exponent) (hm : v.mantissa < w.mantissa)
    (hq : v.Covers q) : ¬w.Covers q := by
  intro hq'
  have hsame : w.quarters q = v.quarters q := by rw [quarters, quarters, he]
  have hgap : (w.lowerGap : ℚ) ≤ 2 := mod_cast w.lowerGap_le
  have hhigh := hq.bounds.2
  have hlow := hq'.bounds.1
  rw [hsame] at hlow
  have hnext : w.mantissa = v.mantissa + 1 := by
    have hle : (w.mantissa : ℚ) ≤ v.mantissa + 1 := by linarith
    have hle' : w.mantissa ≤ v.mantissa + 1 := mod_cast hle
    omega
  have hcast : (w.mantissa : ℚ) = v.mantissa + 1 := mod_cast hnext
  rcases Nat.mod_two_eq_zero_or_one v.mantissa with heven | hodd
  · have hlow' := (hq'.bounds_of_odd (by omega)).1
    rw [hsame] at hlow'
    linarith
  · have hhigh' := (hq.bounds_of_odd hodd).2
    linarith

section

variable (hv : Canonical v.mantissa v.exponent) (hw : Canonical w.mantissa w.exponent)

include hv hw

theorem lower_end_of_exponent_lt (he : v.exponent < w.exponent) :
    (2 : ℚ) ^ 54 - 1 ≤ 4 * w.mantissa - w.lowerGap := by
  have hleast := hv.le
  have hfull : 2 ^ 52 ≤ w.mantissa := hw.full.resolve_right (by omega)
  rcases hfull.eq_or_lt with hpower | hmore
  · have hgap : w.lowerGap = 1 := if_pos ⟨hpower.symm, by omega⟩
    rw [hgap, ← hpower]
    norm_num
  · have hcast : (2 : ℚ) ^ 52 + 1 ≤ w.mantissa := mod_cast hmore
    have hgap : (w.lowerGap : ℚ) ≤ 2 := mod_cast w.lowerGap_le
    linarith

theorem not_covers_of_exponent_lt (he : v.exponent < w.exponent) (hq : v.Covers q) :
    ¬w.Covers q := by
  intro hq'
  have hlow := (lower_end_of_exponent_lt hv hw he).trans hq'.bounds.1
  have hscale : v.quarters q = w.quarters q * 2 ^ (w.exponent - v.exponent) := by
    rw [quarters, quarters, mul_assoc, ← zpow_add₀ two_ne_zero]
    congr 2
    ring
  have hdouble : (2 : ℚ) ≤ 2 ^ (w.exponent - v.exponent) := by
    calc (2 : ℚ) = 2 ^ (1 : Int) := (zpow_one 2).symm
      _ ≤ 2 ^ (w.exponent - v.exponent) := zpow_le_zpow_right₀ one_le_two (by omega)
  have hreached : (2 : ℚ) ^ 55 - 2 ≤ v.quarters q := by
    calc (2 : ℚ) ^ 55 - 2 = (2 ^ 54 - 1) * 2 := by norm_num
      _ ≤ w.quarters q * 2 ^ (w.exponent - v.exponent) :=
        mul_le_mul hlow hdouble two_pos.le (le_trans (by norm_num) hlow)
      _ = v.quarters q := hscale.symm
  rcases Nat.mod_two_eq_zero_or_one v.mantissa with heven | hodd
  · have hless : v.mantissa + 2 ≤ 2 ^ 53 := by
      have hlt := hv.lt
      omega
    have hcast : (v.mantissa : ℚ) + 2 ≤ 2 ^ 53 := mod_cast hless
    have hhigh := hq.bounds.2
    linarith
  · have hcast : (v.mantissa : ℚ) + 1 ≤ 2 ^ 53 := mod_cast hv.lt
    have hhigh := (hq.bounds_of_odd hodd).2
    linarith

/-- A decimal rounds to one number only. -/
theorem eq_of_covers (hq : v.Covers q) (hq' : w.Covers q) : v = w := by
  rcases lt_trichotomy v.exponent w.exponent with he | he | he
  · exact absurd hq' (not_covers_of_exponent_lt hv hw he hq)
  · rcases lt_trichotomy v.mantissa w.mantissa with hm | hm | hm
    · exact absurd hq' (not_covers_of_mantissa_lt he hm hq)
    · cases v
      cases w
      cases he
      cases hm
      rfl
    · exact absurd hq (not_covers_of_mantissa_lt he.symm hm hq')
  · exact absurd hq (not_covers_of_exponent_lt hw hv he hq')

end

/-- On a grid narrower than the interval, one of the two neighbours rounds to the number. -/
theorem rounds_floorOn_or (h : v.mantissa ≠ 0) (hstep : v.quarters (10 ^ k) < v.lowerGap + 2) :
    v.Rounds k (v.floorOn k) ∨ v.Rounds k (v.floorOn k + 1) := by
  have hpos : (0 : ℚ) < v.binaryFactor k := mod_cast v.binaryFactor_pos k
  have hbelow : v.quarters (v.floorOn k * 10 ^ k) ≤ 4 * v.mantissa := by
    have hdiv : v.floorOn k * v.decimalFactor k ≤ 4 * v.mantissa * v.binaryFactor k :=
      Nat.div_mul_le_self _ _
    rw [← mul_le_mul_iff_left₀ hpos, quarters_mul_binaryFactor]
    exact_mod_cast hdiv
  have habove : 4 * v.mantissa < v.quarters ((v.floorOn k + 1 : Nat) * 10 ^ k) := by
    have hdiv : 4 * v.mantissa * v.binaryFactor k < (v.floorOn k + 1) * v.decimalFactor k :=
      Nat.lt_mul_of_div_lt (Nat.lt_succ_self _) (v.decimalFactor_pos k)
    rw [← mul_lt_mul_iff_left₀ hpos, quarters_mul_binaryFactor]
    exact_mod_cast hdiv
  have hnext : v.quarters ((v.floorOn k + 1 : Nat) * 10 ^ k) =
      v.quarters (v.floorOn k * 10 ^ k) + v.quarters (10 ^ k) := by
    rw [quarters, quarters, quarters, Nat.cast_succ]
    ring
  rw [rounds_iff_covers h, rounds_iff_covers h]
  by_cases hlow : 4 * v.mantissa - v.lowerGap < v.quarters (v.floorOn k * 10 ^ k)
  · exact .inl (covers_of_lt hlow (by linarith))
  · have hgap : (0 : ℚ) ≤ v.lowerGap := Nat.cast_nonneg _
    exact .inr (covers_of_lt (by linarith) (by linarith))

theorem nearestOn_eq_none_iff :
    v.nearestOn k = none ↔ ¬(v.Rounds k (v.floorOn k) ∨ v.Rounds k (v.floorOn k + 1)) := by
  unfold nearestOn
  dsimp only
  split_ifs with hd hnext hnext <;> simp [hd, hnext]

/-- Seventeen digits make a grid that is narrower than the interval. -/
theorem seventeenth_digit_lt (h : Canonical v.mantissa v.exponent) :
    v.quarters (10 ^ (v.leadingPlace - 16)) < v.lowerGap + 2 := by
  have hlead := pow_leadingPlace_le (v := v) h.pos.ne'
  have hstep : v.quarters (10 ^ (v.leadingPlace - 16)) ≤ 4 * v.mantissa / 10 ^ 16 := by
    have hplace : (10 : ℚ) ^ (v.leadingPlace - 16) = 10 ^ v.leadingPlace / 10 ^ 16 := by
      rw [zpow_sub₀ (by norm_num)]
      norm_num
    have hscale : (2 : ℚ) ^ v.exponent * 2 ^ (2 - v.exponent) = 4 := by
      rw [← zpow_add₀ two_ne_zero, add_sub_cancel]
      norm_num
    have hpos : (0 : ℚ) < 2 ^ (2 - v.exponent) := zpow_pos two_pos _
    rw [quarters, hplace, div_mul_eq_mul_div]
    apply div_le_div_of_nonneg_right _ (by positivity)
    calc (10 : ℚ) ^ v.leadingPlace * 2 ^ (2 - v.exponent)
        ≤ v.mantissa * 2 ^ v.exponent * 2 ^ (2 - v.exponent) :=
          mul_le_mul_of_nonneg_right hlead hpos.le
      _ = 4 * v.mantissa := by rw [mul_assoc, hscale, mul_comm]
  have hlt : (v.mantissa : ℚ) < 2 ^ 53 := mod_cast h.lt
  apply hstep.trans_lt
  rw [div_lt_iff₀ (by positivity)]
  unfold lowerGap
  split_ifs with hpower
  · rw [hpower.1]
    norm_num
  · push_cast
    linarith

/-- The digits found round to the number. -/
theorem covers_shortest (h : Canonical v.mantissa v.exponent) :
    v.Covers (v.shortest.digits * 10 ^ v.shortest.exponent) := by
  obtain ⟨k, digits, hdigits, hshortest⟩ | ⟨hnone, -⟩ := v.shortest_cases
  · rw [hshortest]
    exact (rounds_iff_covers h.pos.ne').mp (rounds_of_nearestOn hdigits)
  · exact absurd (rounds_floorOn_or h.pos.ne' (seventeenth_digit_lt h))
      (nearestOn_eq_none_iff.mp hnone)

end DenseLinear.Binary
