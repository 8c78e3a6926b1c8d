import DenseLinear.Proofs.MachineValues
import DenseLinear.Rounding

/-!
# Powers of ten

Every product of numbers from one on is off by a factor of at most `1 + 2 ^ -52`. So the power that
is found by squaring is within as many such factors as the exponent of the exact one, which decides
where the powers of ten are finite: up to the exponent 308.
-/

namespace DenseLinear.Binary64

open Float.Model Float.Model.UnpackedFloat

/-- The factor by which the rounding of one product moves it at most. -/
def drift : ℚ := 1 + 1 / 2 ^ 52

theorem one_lt_drift : 1 < drift := by norm_num [drift]

theorem drift_pos : 0 < drift := one_lt_drift.trans' one_pos

/-- A positive number between two bounds, or an infinity that the upper bound leaves room for. -/
inductive Within (lower upper : ℚ) (u : UnpackedFloat) : Prop where
  | value {q : ℚ} (h : HasValue .positive q u) (hlower : lower ≤ q) (hupper : q ≤ upper)
  | infinity (h : u = .infinity .positive) (hupper : limit ≤ upper)

section

variable {q lower upper lower' upper' : ℚ} {u v : UnpackedFloat} {s : Sign}

/-- A number of magnitude one or more has all bits, so half a step is a small part of it. -/
theorem Rounded.value_or_infinity (h : Rounded s q u) (hq : 1 ≤ q) :
    (∃ r, HasValue s r u ∧ q ≤ drift * r ∧ r ≤ drift * q) ∨ u = .infinity s ∧ limit ≤ q := by
  cases h with
  | zero hzero =>
    have hsmall : (2 : ℚ) ^ (-1075 : Int) < 2 ^ (0 : Int) :=
      zpow_lt_zpow_right₀ one_lt_two (by norm_num)
    exact absurd (hq.trans hzero) hsmall.not_ge
  | infinity hlimit => exact .inr ⟨rfl, hlimit⟩
  | @finite m e hm he hlow hhigh hnear =>
    left
    refine ⟨m * 2 ^ e, .finite hm he rfl, ?_⟩
    have hpos := two_zpow_pos e
    obtain ⟨hbelow, habove⟩ := abs_le.mp hnear
    have hfull : 2 ^ 52 ≤ m := by
      by_contra hm'
      obtain rfl : e = -1074 := hm.full.resolve_left hm'
      have hm' : (m : ℚ) ≤ 2 ^ 52 := mod_cast (Nat.lt_of_not_le hm').le
      have hsmall : (2 : ℚ) ^ (-1074 : Int) ≤ 2 ^ (-54 : Int) := two_zpow_le (by norm_num)
      have hprod := mul_le_mul hm' hsmall hpos.le (by norm_num)
      generalize (2 : ℚ) ^ (-1074 : Int) = a at *
      norm_num at hprod hsmall
      linarith
    have hm' : (2 : ℚ) ^ 52 ≤ m := mod_cast hfull
    have hprod := mul_le_mul_of_nonneg_right hm' hpos.le
    generalize (2 : ℚ) ^ e = a at *
    generalize (m : ℚ) * a = r at *
    unfold drift
    norm_num at hprod ⊢
    constructor <;> linarith

theorem Within.one_le_upper (h : Within lower upper u) (hlower : 1 ≤ lower) : 1 ≤ upper := by
  cases h with
  | value h hql hqu => exact hlower.trans (hql.trans hqu)
  | infinity h hupper => exact one_lt_limit.le.trans hupper

theorem limit_le_mul_drift (h : limit ≤ upper) : limit ≤ upper * drift :=
  h.trans (le_mul_of_one_le_right (zero_le_one.trans (one_lt_limit.le.trans h)) one_lt_drift.le)

theorem Rounded.within (h : Rounded .positive q u) (hq : 1 ≤ q) (hlower : lower ≤ q)
    (hupper : q ≤ upper) : Within (lower / drift) (upper * drift) u := by
  have hdrift := drift_pos
  obtain ⟨r, hr, hlow, hhigh⟩ | ⟨rfl, hlimit⟩ := h.value_or_infinity hq
  · refine .value hr ?_ ?_
    · rw [div_le_iff₀ hdrift]
      linarith
    · have hscaled := mul_le_mul_of_nonneg_left hupper hdrift.le
      linarith
  · exact .infinity rfl (limit_le_mul_drift (hlimit.trans hupper))

theorem Within.mul {x y : Float} (hx : Within lower upper x.toModel.unpack)
    (hy : Within lower' upper' y.toModel.unpack) (hlower : 1 ≤ lower) (hlower' : 1 ≤ lower') :
    Within (lower * lower' / drift) (upper * upper' * drift) (x * y).toModel.unpack := by
  have hupper := hx.one_le_upper hlower
  have hupper' := hy.one_le_upper hlower'
  cases hx with
  | @value q hq hql hqu =>
    have hone := hlower.trans hql
    cases hy with
    | @value r hr hrl hru =>
      have hone' := hlower'.trans hrl
      have hbelow : lower * lower' ≤ q * r :=
        mul_le_mul hql hrl (zero_le_one.trans hlower') (zero_le_one.trans hone)
      have habove : q * r ≤ upper * upper' :=
        mul_le_mul hqu hru (zero_le_one.trans hone') (zero_le_one.trans hupper)
      have hprod := hq.mul hr
      rw [mul_positive] at hprod
      exact hprod.within (one_le_mul_of_one_le_of_one_le hone hone') hbelow habove
    | infinity h hru =>
      rw [toModel_mul, h, hq.mul_infinity (by linarith), mul_positive, unpack_pack_infinity]
      have hlimit := hru.trans (le_mul_of_one_le_left (zero_le_one.trans hupper') hupper)
      exact .infinity rfl (limit_le_mul_drift hlimit)
  | infinity h hqu =>
    have hlimit := limit_le_mul_drift
      (hqu.trans (le_mul_of_one_le_right (zero_le_one.trans hupper) hupper'))
    cases hy with
    | @value r hr hrl hru =>
      rw [toModel_mul, h, hr.infinity_mul (by linarith), mul_positive, unpack_pack_infinity]
      exact .infinity rfl hlimit
    | infinity h' hru =>
      rw [toModel_mul, h, h']
      exact .infinity rfl hlimit

end

section

variable {x : Float} {q : ℚ}

/-- The next factor times a power so far. -/
theorem within_next_power {r p : Float} {m k : Nat} (hq : drift ≤ q)
    (hr : Within ((q / drift) ^ m) ((q * drift) ^ m) r.toModel.unpack)
    (hp : Within (drift * (q / drift) ^ k) ((q * drift) ^ k / drift) p.toModel.unpack) :
    Within ((q / drift) ^ (m + k)) ((q * drift) ^ (m + k)) (r * p).toModel.unpack := by
  have hone : 1 ≤ q / drift := (one_le_div₀ drift_pos).mpr hq
  have hne := drift_pos.ne'
  have hproduct := hr.mul hp (one_le_pow₀ hone)
    (one_le_mul_of_one_le_of_one_le one_lt_drift.le (one_le_pow₀ hone))
  have hlow : (q / drift) ^ (m + k) =
      (q / drift) ^ m * (drift * (q / drift) ^ k) / drift := by
    rw [pow_add]
    field_simp
  have hhigh : (q * drift) ^ (m + k) =
      (q * drift) ^ m * ((q * drift) ^ k / drift) * drift := by
    rw [pow_add]
    field_simp
  rw [hlow, hhigh]
  exact hproduct

theorem within_next_square {p : Float} {k : Nat} (hq : drift ≤ q)
    (hp : Within (drift * (q / drift) ^ k) ((q * drift) ^ k / drift) p.toModel.unpack) :
    Within (drift * (q / drift) ^ (k + k)) ((q * drift) ^ (k + k) / drift)
      (p * p).toModel.unpack := by
  have hone : 1 ≤ q / drift := (one_le_div₀ drift_pos).mpr hq
  have hne := drift_pos.ne'
  have hlower : 1 ≤ drift * (q / drift) ^ k :=
    one_le_mul_of_one_le_of_one_le one_lt_drift.le (one_le_pow₀ hone)
  have hlow : drift * (q / drift) ^ (k + k) =
      drift * (q / drift) ^ k * (drift * (q / drift) ^ k) / drift := by
    rw [pow_add]
    field_simp
  have hhigh : (q * drift) ^ (k + k) / drift =
      (q * drift) ^ k / drift * ((q * drift) ^ k / drift) * drift := by
    rw [pow_add]
    field_simp
  rw [hlow, hhigh]
  exact hp.mul hp hlower hlower

/-- The power so far and the next factor, after the last `k` binary digits of the exponent. -/
theorem within_power_digits (hx : HasValue .positive q x.toModel.unpack) (hq : drift ≤ q)
    (n k : Nat) :
    let state := ((List.range k).map n.testBit).foldl
      (fun (r, p) bit => (if bit then r * p else r, p * p)) ((1 : Float), x)
    Within ((q / drift) ^ (n % 2 ^ k)) ((q * drift) ^ (n % 2 ^ k)) state.1.toModel.unpack ∧
      Within (drift * (q / drift) ^ 2 ^ k) ((q * drift) ^ 2 ^ k / drift)
        state.2.toModel.unpack := by
  induction k with
  | zero =>
    have hne := drift_pos.ne'
    dsimp only
    rw [pow_zero, Nat.mod_one, pow_zero, pow_zero, pow_one, pow_one, mul_div_cancel₀ _ hne,
      mul_div_cancel_right₀ _ hne]
    exact ⟨.value hasValue_one le_rfl le_rfl, .value hx le_rfl le_rfl⟩
  | succ k ih =>
    dsimp only at ih ⊢
    rw [List.range_succ, List.map_append, List.foldl_append]
    generalize ((List.range k).map n.testBit).foldl
      (fun (r, p) bit => (if bit then r * p else r, p * p)) ((1 : Float), x) = state at ih ⊢
    obtain ⟨r, p⟩ := state
    obtain ⟨hr, hp⟩ := ih
    dsimp only at hr hp
    change Within _ _ (if n.testBit k then r * p else r).toModel.unpack ∧
      Within _ _ (p * p).toModel.unpack
    constructor
    · rw [Nat.mod_pow_succ, Nat.testBit_eq_decide_div_mod_eq]
      obtain hbit | hbit := Nat.mod_two_eq_zero_or_one (n / 2 ^ k)
      · simpa [hbit] using hr
      · rw [hbit, Nat.mul_one, if_pos (decide_eq_true rfl)]
        exact within_next_power hq hr hp
    · rw [pow_succ, Nat.mul_two]
      exact within_next_square hq hp

theorem within_power (hx : HasValue .positive q x.toModel.unpack) (hq : drift ≤ q) (n : Nat) :
    Within ((q / drift) ^ n) ((q * drift) ^ n) (power x n).toModel.unpack := by
  have h := (within_power_digits hx hq n (n.log2 + 1)).1
  rwa [Nat.mod_eq_of_lt Nat.lt_log2_self] at h

end

theorem hasValue_ten : HasValue .positive 10 (10 : Float).toModel.unpack := by
  have hten : Canonical (10 * 2 ^ 49) (-49) :=
    ⟨by norm_num, by norm_num, by norm_num, .inl (by norm_num)⟩
  exact .finite hten (by norm_num) (by norm_num)

theorem upper_lt_limit : (10 * drift) ^ 308 < limit := by
  unfold drift limit
  decide +kernel

theorem limit_le_lower : limit ≤ (10 / drift) ^ 309 := by
  unfold drift limit
  decide +kernel

section

variable {n : Nat}

theorem within_ten_pow (n : Nat) :
    Within ((10 / drift) ^ n) ((10 * drift) ^ n) (power 10 n).toModel.unpack :=
  within_power hasValue_ten (by norm_num [drift]) n

theorem exists_ten_pow (hn : n ≤ 308) :
    ∃ q, HasValue .positive q (power 10 n).toModel.unpack ∧ (10 / drift) ^ n ≤ q ∧
      q ≤ (10 * drift) ^ n := by
  cases within_ten_pow n with
  | value h hlower hupper => exact ⟨_, h, hlower, hupper⟩
  | infinity h hupper =>
    have hone : 1 ≤ 10 * drift := by norm_num [drift]
    exact absurd (hupper.trans (pow_le_pow_right₀ hone hn)) upper_lt_limit.not_ge

theorem ten_pow_infinity (hn : 308 < n) : (power 10 n).toModel.unpack = .infinity .positive := by
  cases within_ten_pow n with
  | value h hlower hupper =>
    have hone : 1 ≤ 10 / drift := by norm_num [drift]
    have hle := limit_le_lower.trans ((pow_le_pow_right₀ hone hn).trans hlower)
    exact absurd hle h.lt_limit.not_ge
  | infinity h hupper => exact h

end

section

variable {d : Int}

/-- The scale of up to 308 places, or of as many tens, is a positive number. -/
theorem exists_decimalScale (hd : d.natAbs ≤ 308) :
    ∃ q, HasValue .positive q (decimalScale d).toModel.unpack ∧ 0 < q ∧ (0 ≤ d → 1 ≤ q) := by
  obtain ⟨q, hq, hlower, hupper⟩ := exists_ten_pow hd
  have hone : 1 ≤ q := (one_le_pow₀ (by norm_num [drift])).trans hlower
  unfold decimalScale
  dsimp only
  split_ifs with hneg
  · have hpos := zero_lt_one.trans_le hone
    have hle : 1 / q ≤ 1 := (div_le_one₀ hpos).mpr hone
    obtain ⟨r, hr, hr'⟩ := (hasValue_one.div hq hpos.ne').exists_pos_value
      (least_lt_div le_rfl hpos hq.lt_limit) (hle.trans_lt one_lt_limit)
    exact ⟨r, hr, hr', by omega⟩
  · exact ⟨q, hq, zero_lt_one.trans_le hone, fun _ => hone⟩

theorem decimalScale_infinity (hd : 308 < d) :
    (decimalScale d).toModel.unpack = .infinity .positive := by
  unfold decimalScale
  dsimp only
  rw [if_neg (by omega), ten_pow_infinity (by omega)]

theorem decimalScale_zero (hd : d < -308) :
    (decimalScale d).toModel.unpack = .zero .positive := by
  unfold decimalScale
  dsimp only
  rw [if_pos (by omega), toModel_div, ten_pow_infinity (by omega), unpack_one]
  rfl

end

end DenseLinear.Binary64
