import Mathlib
import DenseLinear.Decimal.Text

/-!
# Texts of zero

The text of a number has a digit other than zero, unless the number is a zero: what rounds to a
number other than zero is not zero. So of all numbers only the negative zero is written `-0`.
-/

namespace DenseLinear

namespace Binary

variable {v : Binary}

theorem binaryFactor_pos (v : Binary) (k : Int) : 0 < v.binaryFactor k := by
  unfold binaryFactor
  rw [Nat.shiftLeft_eq, Nat.pow_eq]
  positivity

theorem lowerGap_le (v : Binary) : v.lowerGap ≤ 2 := by
  unfold lowerGap
  split_ifs <;> decide

theorem not_rounds_zero (h : v.mantissa ≠ 0) (k : Int) : ¬v.Rounds k 0 := by
  have hgap := v.lowerGap_le
  have hlow : 0 < (4 * v.mantissa - v.lowerGap) * v.binaryFactor k :=
    Nat.mul_pos (by omega) (v.binaryFactor_pos k)
  unfold Rounds
  rw [Nat.zero_mul]
  split_ifs
  · exact fun hr => hlow.not_ge hr.1
  · exact fun hr => Nat.not_lt_zero _ hr.1

theorem rounds_of_nearestOn {k : Int} {d : Nat} (h : v.nearestOn k = some d) : v.Rounds k d := by
  unfold nearestOn at h
  dsimp only at h
  split_ifs at h with hd hnext hnext
  · cases h
    exact hnext.1
  · cases h
    exact hd
  · cases h
    exact hnext

/-- A power by a whole exponent, its positive part against its negative part. -/
theorem pow_toNat {b : ℚ} (hb : b ≠ 0) (i : Int) : b ^ i.toNat = b ^ i * b ^ (-i).toNat := by
  have hparts : (i.toNat : Int) = i + (-i).toNat := by omega
  rw [← zpow_natCast, hparts, zpow_add₀ hb, zpow_natCast]

/-- The place of the leading digit is one that the value reaches. -/
theorem pow_leadingPlace_le (h : v.mantissa ≠ 0) :
    (10 : ℚ) ^ v.leadingPlace ≤ v.mantissa * 2 ^ v.exponent := by
  have htop : v.mantissa <<< v.exponent.toNat = v.mantissa * 2 ^ v.exponent.toNat :=
    Nat.shiftLeft_eq _ _
  have hbottom : 1 <<< (-v.exponent).toNat = 2 ^ (-v.exponent).toNat := by
    rw [Nat.shiftLeft_eq, Nat.one_mul]
  have hvalue : (v.mantissa : ℚ) * 2 ^ v.exponent =
      (v.mantissa * 2 ^ v.exponent.toNat : Nat) / (2 ^ (-v.exponent).toNat : Nat) := by
    push_cast
    rw [pow_toNat two_ne_zero]
    field_simp
  have hpos : 0 < v.mantissa * 2 ^ v.exponent.toNat := by positivity
  have hpos' : 0 < 2 ^ (-v.exponent).toNat := by positivity
  unfold leadingPlace
  rw [htop, hbottom, hvalue]
  generalize v.mantissa * 2 ^ v.exponent.toNat = top at hpos ⊢
  generalize 2 ^ (-v.exponent).toNat = bottom at hpos' ⊢
  dsimp only
  split_ifs with hle
  · have hlength : 0 < (Nat.toDigits 10 (top / bottom)).length := Nat.length_toDigits_pos
    obtain ⟨k, hk⟩ : ∃ k, (Nat.toDigits 10 (top / bottom)).length = k + 1 :=
      ⟨_, (Nat.succ_pred_eq_of_pos hlength).symm⟩
    have hreached : 10 ^ k ≤ top / bottom := by
      obtain rfl | hk' := Nat.eq_zero_or_pos k
      · exact Nat.div_pos hle hpos'
      · by_contra hlt
        have hless := (Nat.length_toDigits_le_iff (by norm_num) hk').mpr (Nat.lt_of_not_le hlt)
        omega
    have hprod : (10 : ℚ) ^ k * bottom ≤ top := mod_cast (Nat.le_div_iff_mul_le hpos').mp hreached
    rw [hk, Nat.cast_succ, add_sub_cancel_right, zpow_natCast, le_div_iff₀ (by positivity)]
    exact hprod
  · have hless := (Nat.length_toDigits_le_iff (by norm_num) Nat.length_toDigits_pos).mp
      (le_refl (Nat.toDigits 10 (bottom / top)).length)
    have hprod : (bottom : ℚ) < 10 ^ (Nat.toDigits 10 (bottom / top)).length * top :=
      mod_cast (Nat.div_lt_iff_lt_mul hpos).mp hless
    rw [zpow_neg, zpow_natCast, le_div_iff₀ (by positivity), inv_mul_le_iff₀ (by positivity)]
    exact hprod.le

theorem decimalFactor_pos (v : Binary) (k : Int) : 0 < v.decimalFactor k := by
  unfold decimalFactor
  rw [Nat.shiftLeft_eq, Nat.pow_eq]
  positivity

/-- The factors of the two sides are to each other as a step of `10 ^ k` to a quarter of the last
place. -/
theorem decimalFactor_eq (v : Binary) (k : Int) :
    (v.decimalFactor k : ℚ) = 10 ^ k * 2 ^ (2 - v.exponent) * v.binaryFactor k := by
  have hneg : -(2 - v.exponent) = v.exponent - 2 := by omega
  unfold decimalFactor binaryFactor
  rw [Nat.shiftLeft_eq, Nat.shiftLeft_eq, Nat.pow_eq, Nat.pow_eq]
  push_cast
  rw [pow_toNat (by norm_num), pow_toNat two_ne_zero, hneg]
  ring

theorem floorOn_ne_zero {k : Int} (h : (10 : ℚ) ^ k ≤ v.mantissa * 2 ^ v.exponent) :
    v.floorOn k ≠ 0 := by
  have hle : v.decimalFactor k ≤ 4 * v.mantissa * v.binaryFactor k := by
    have hcast : (v.decimalFactor k : ℚ) ≤ 4 * v.mantissa * v.binaryFactor k := by
      rw [decimalFactor_eq]
      apply mul_le_mul_of_nonneg_right _ (Nat.cast_nonneg _)
      rw [zpow_sub₀ two_ne_zero, ← mul_div_assoc, div_le_iff₀ (zpow_pos two_pos _)]
      norm_num
      linarith
    exact_mod_cast hcast
  exact (Nat.div_pos hle (v.decimalFactor_pos k)).ne'

/-- The digits are found on some grid, or the finest has none and its neighbour below is taken. -/
theorem shortest_cases (v : Binary) :
    (∃ k d, v.nearestOn k = some d ∧ v.shortest = ⟨d, k⟩) ∨
      (v.nearestOn (v.leadingPlace - 16) = none ∧
        v.shortest = ⟨v.floorOn (v.leadingPlace - 16), v.leadingPlace - 16⟩) := by
  unfold shortest
  dsimp only
  cases hfound : (List.range 17).findSome? fun n : Nat =>
      (v.nearestOn (v.leadingPlace - n)).map fun d => Decimal.mk d (v.leadingPlace - n) with
  | none =>
    have hlast := List.findSome?_eq_none_iff.mp hfound 16 (by decide)
    exact .inr ⟨Option.map_eq_none_iff.mp hlast, rfl⟩
  | some d =>
    obtain ⟨n, -, hn⟩ := List.exists_of_findSome?_eq_some hfound
    obtain ⟨digits, hdigits, rfl⟩ := Option.map_eq_some_iff.mp hn
    exact .inl ⟨_, digits, hdigits, rfl⟩

theorem shortest_digits_ne_zero (h : v.mantissa ≠ 0) : v.shortest.digits ≠ 0 := by
  obtain ⟨k, digits, hdigits, hshortest⟩ | ⟨-, hshortest⟩ := v.shortest_cases
  · rw [hshortest]
    rintro rfl
    exact not_rounds_zero h k (rounds_of_nearestOn hdigits)
  · have hplace : (10 : ℚ) ^ (v.leadingPlace - 16) ≤ 10 ^ v.leadingPlace :=
      zpow_le_zpow_right₀ (by norm_num) (by omega)
    rw [hshortest]
    exact floorOn_ne_zero (hplace.trans (pow_leadingPlace_le h))

end Binary

theorem mem_joinPoint {c : Char} {p : List Char × List Char} (hc : c ≠ '.') :
    c ∈ joinPoint p ↔ c ∈ p.1 ∨ c ∈ p.2 := by
  obtain ⟨whole, decimals⟩ := p
  cases decimals with
  | nil => simp [joinPoint]
  | cons a as => simp [joinPoint, hc]

theorem mem_splitDigits {c : Char} (digits : List Char) (n : Nat) (hc : c ≠ '0') :
    (c ∈ (splitDigits digits n).1 ∨ c ∈ (splitDigits digits n).2) ↔ c ∈ digits := by
  unfold splitDigits
  rw [List.splitAt_eq]
  dsimp only
  rw [← List.mem_append, List.take_append_drop, List.mem_append]
  simp [hc]

namespace Decimal

/-- What is trimmed are zeros, and the exponent counts them. -/
theorem exists_trimmed (d : Decimal) : ∃ n : Nat,
    d.trimmed.1 ++ List.replicate n '0' = Nat.toDigits 10 d.digits ∧
      d.trimmed.2 = d.exponent + n := by
  unfold trimmed
  dsimp only
  generalize Nat.toDigits 10 d.digits = digits
  have hzeros : ∀ a ∈ digits.reverse.takeWhile (· == '0'), a = '0' := by
    intro a ha
    simpa using List.mem_takeWhile_imp ha
  have htaken := List.prefix_iff_eq_take.mp
    (List.takeWhile_prefix (· == '0') : _ <+: digits.reverse)
  generalize digits.reverse.takeWhile (· == '0') = zeros at hzeros htaken ⊢
  have hdropped : digits.drop (digits.length - zeros.length) = zeros.reverse := by
    conv_rhs => rw [htaken, List.reverse_take, List.reverse_reverse, List.length_reverse]
  have hreplicate : zeros.reverse = List.replicate zeros.length '0' :=
    List.eq_replicate_iff.mpr ⟨List.length_reverse, fun a ha => hzeros a (List.mem_reverse.mp ha)⟩
  exact ⟨zeros.length, by rw [← hreplicate, ← hdropped, List.take_append_drop], rfl⟩

theorem mem_trimmed {c : Char} (d : Decimal) (hc : c ≠ '0') :
    c ∈ d.trimmed.1 ↔ c ∈ Nat.toDigits 10 d.digits := by
  obtain ⟨n, hdigits, -⟩ := d.exists_trimmed
  rw [← hdigits, List.mem_append]
  simp [hc]

theorem mem_plain {c : Char} (d : Decimal) (hc : c ≠ '0') (hc' : c ≠ '.') :
    c ∈ d.plain ↔ c ∈ Nat.toDigits 10 d.digits := by
  unfold plain
  dsimp only
  rw [mem_joinPoint hc', mem_splitDigits _ _ hc, List.mem_append, ← d.mem_trimmed hc]
  simp [hc]

end Decimal

theorem exists_digit_ne_zero {n : Nat} (h : n ≠ 0) : ∃ c ∈ Nat.toDigits 10 n, c ≠ '0' := by
  induction n using Nat.strong_induction_on with
  | _ n ih =>
    by_cases hn : n < 10
    · rw [Nat.toDigits_of_lt_base hn]
      refine ⟨n.digitChar, List.mem_singleton_self _, ?_⟩
      interval_cases n
      · exact absurd rfl h
      all_goals decide
    · rw [Nat.toDigits_of_base_le (by norm_num) (by omega)]
      obtain ⟨c, hc, hne⟩ := ih (n / 10) (by omega) (by omega)
      exact ⟨c, List.mem_append_left _ hc, hne⟩

section

variable {d : Decimal}

theorem Decimal.plain_ne_zero (h : d.digits ≠ 0) : d.plain ≠ ['0'] := by
  obtain ⟨c, hc, hne⟩ := exists_digit_ne_zero h
  have hpoint : c ≠ '.' := by
    rintro rfl
    exact absurd (Nat.isDigit_of_mem_toDigits (by norm_num) (by norm_num) hc) (by decide)
  intro hplain
  have hmem := (d.mem_plain hne hpoint).mpr hc
  rw [hplain, List.mem_singleton] at hmem
  exact hne hmem

theorem Decimal.isDigit_of_mem_plain {c : Char} (h : c ∈ d.plain) (hc : c ≠ '.') :
    c.isDigit = true := by
  by_cases hzero : c = '0'
  · rw [hzero]
    rfl
  · exact Nat.isDigit_of_mem_toDigits (by norm_num) (by norm_num) ((d.mem_plain hzero hc).mp h)

end

theorem exists_of_text_eq {v : FloatValue} {magnitude : Binary → List Char}
    (h : v.text magnitude = "-0") :
    ∃ m, v = .finite true m ∧ magnitude m = ['0'] ∨
      v = .finite false m ∧ magnitude m = ['-', '0'] := by
  have hlist := congrArg String.toList h
  cases v with
  | nan =>
    change "NaN" = "-0" at h
    exact absurd h (by decide)
  | infinite negative =>
    change (if negative then "-" else "") ++ "inf" = "-0" at h
    cases negative <;> exact absurd h (by decide)
  | finite negative m =>
    refine ⟨m, ?_⟩
    cases negative with
    | true =>
      left
      simpa [FloatValue.text, FloatValue.text.sign] using hlist
    | false =>
      right
      simpa [FloatValue.text, FloatValue.text.sign] using hlist

/-- A number is known from its word. -/
theorem eq_of_toBits_eq {x y : Float} (h : x.toBits.toNat = y.toBits.toNat) : x = y := by
  obtain ⟨⟨word, hvalid⟩⟩ := x
  obtain ⟨⟨word', hvalid'⟩⟩ := y
  obtain rfl : word = word' := UInt64.toNat_inj.mp h
  rfl

/-- The only number with a negative sign whose mantissa is zero. -/
theorem eq_neg_zero_of_mantissa {x : Float} {v : Binary} (h : FloatValue.ofFloat x = .finite true v)
    (hv : v.mantissa = 0) : x = -0 := by
  have hlt := x.toBits.toNat_lt
  have hbits : x.toBits.toNat = (-0 : Float).toBits.toNat := by
    change x.toBits.toNat = 9223372036854775808
    unfold FloatValue.ofFloat FloatValue.ofBits at h
    dsimp only at h
    split_ifs at h with hmost hfraction hleast
    · obtain ⟨hsign, rfl⟩ := FloatValue.finite.inj h
      rw [beq_iff_eq, Nat.shiftRight_eq_div_pow] at hsign
      rw [Nat.shiftRight_eq_div_pow] at hleast
      dsimp only at hv
      omega
    · obtain ⟨hsign, rfl⟩ := FloatValue.finite.inj h
      dsimp only at hv
      omega
  exact eq_of_toBits_eq hbits

/-- Of all numbers, only the negative zero is written `-0`. -/
theorem plainText_eq_neg_zero_iff (x : Float) : plainText x = "-0" ↔ x = -0 := by
  constructor
  · intro h
    obtain ⟨v, ⟨hx, hv⟩ | ⟨hx, hv⟩⟩ := exists_of_text_eq h
    · split_ifs at hv with hmantissa
      · exact eq_neg_zero_of_mantissa hx hmantissa
      · exact absurd hv (Decimal.plain_ne_zero (Binary.shortest_digits_ne_zero hmantissa))
    · split_ifs at hv with hmantissa
      · cases hv
      · have hminus := Decimal.isDigit_of_mem_plain (hv ▸ List.mem_cons_self) (by decide)
        exact absurd hminus (by decide)
  · rintro rfl
    decide

end DenseLinear
