import DenseLinear.Proofs.MachineValues
import DenseLinear.Rounding

/-!
# Rounding to whole numbers

A sum or a difference that needs no more bits than a number has room for is exact. So are the whole
part of a number below `2 ^ 52`, the rest after it and the next whole number, and the nearest whole
number is found without error.
-/

namespace DenseLinear.Binary64

open Float.Model Float.Model.UnpackedFloat

theorem exists_canonical {n : Nat} {e : Int} (hpos : 0 < n) (hlt : n < 2 ^ 53) (hle : -1074 ≤ e) :
    ∃ k : Nat, Canonical (n * 2 ^ k) (e - k) := by
  have hlog : n.log2 < 53 := (Nat.log2_lt hpos.ne').mpr hlt
  have hbelow : 2 ^ n.log2 ≤ n := Nat.log2_self_le hpos.ne'
  have habove : n < 2 ^ (n.log2 + 1) := Nat.lt_log2_self
  refine ⟨min (52 - n.log2) (e + 1074).toNat, by positivity, ?_, by omega, ?_⟩
  · calc
      n * 2 ^ min (52 - n.log2) (e + 1074).toNat ≤ n * 2 ^ (52 - n.log2) :=
        Nat.mul_le_mul_left n (Nat.pow_le_pow_right two_pos (Nat.min_le_left _ _))
      _ < 2 ^ (n.log2 + 1) * 2 ^ (52 - n.log2) :=
        Nat.mul_lt_mul_of_pos_right habove (by positivity)
      _ = 2 ^ 53 := by
        rw [← pow_add]
        congr 1
        omega
  · obtain h | h := Nat.le_total (52 - n.log2) (e + 1074).toNat
    · left
      rw [Nat.min_eq_left h]
      calc
        2 ^ 52 = 2 ^ n.log2 * 2 ^ (52 - n.log2) := by
          rw [← pow_add]
          congr 1
          omega
        _ ≤ n * 2 ^ (52 - n.log2) := Nat.mul_le_mul_right _ hbelow
    · right
      omega

section

variable {m n : Nat} {e f : Int}

theorem eq_mul_two_pow {k : Nat} (h : (n : ℚ) * 2 ^ e = m * 2 ^ (e + k)) : n = m * 2 ^ k := by
  rw [zpow_add₀ two_ne_zero, zpow_natCast] at h
  have hpos := two_zpow_pos e
  have hcast : (n : ℚ) = m * 2 ^ k := by
    apply mul_right_cancel₀ hpos.ne'
    linarith
  exact_mod_cast hcast

/-- A value that has a canonical mantissa is not changed. -/
theorem Canonical.round_eq (h : Canonical m e) (s : Sign) (hvalue : (n : ℚ) * 2 ^ f = m * 2 ^ e) :
    UnpackedFloat.round Format.binary64 s n f = .finite s m e h.pos := by
  obtain hfe | hef := Int.le_total f e
  · obtain ⟨k, rfl⟩ : ∃ k : Nat, e = f + k := ⟨(e - f).toNat, by omega⟩
    have hn := eq_mul_two_pow hvalue
    have htotal := totalExponent_mul_two_pow h.pos.ne' k (f + k)
    rw [← hn, Int.add_sub_cancel] at htotal
    have hamount : (f - (f + k)).toNat = 0 := by omega
    have hround := h.roundWithAccuracy_eq s k
    rw [← hn, Int.add_sub_cancel] at hround
    simp only [UnpackedFloat.round, htotal, h.targetExponent_eq, decreaseExponent, hamount,
      Nat.shiftLeft_zero, Nat.cast_zero, Int.sub_zero, hround]
  · obtain ⟨k, rfl⟩ : ∃ k : Nat, f = e + k := ⟨(f - e).toNat, by omega⟩
    have hn := eq_mul_two_pow hvalue.symm
    have hpos : n ≠ 0 := by
      rintro rfl
      exact h.pos.ne' (by simpa using hn)
    have htotal := totalExponent_mul_two_pow hpos k (e + k)
    rw [← hn, Int.add_sub_cancel] at htotal
    have hamount : (e + k - e).toNat = k := by omega
    have hround := h.roundWithAccuracy_eq s 0
    rw [pow_zero, Nat.mul_one, Nat.cast_zero, Int.sub_zero] at hround
    simp only [UnpackedFloat.round, ← htotal, h.targetExponent_eq, decreaseExponent, hamount,
      Nat.shiftLeft_eq, ← hn, Int.add_sub_cancel, hround]

end

/-- The value has at most 53 bits, in the range of the exponents. -/
def Fits (q : ℚ) : Prop :=
  ∃ (n : Nat) (e : Int), n < 2 ^ 53 ∧ -1074 ≤ e ∧ e ≤ 971 ∧ n * 2 ^ e = q

section

variable {s : Sign} {q r : ℚ} {u v : UnpackedFloat}

/-- What has few enough bits is not rounded. -/
theorem hasValue_normalize {n : Nat} {e : Int} (hq : Fits q) (hvalue : (n : ℚ) * 2 ^ e = q) :
    HasValue .positive q (UnpackedFloat.normalize Format.binary64 n e .positive) := by
  by_cases hn : n = 0
  · subst hn
    rw [Nat.cast_zero, zero_mul] at hvalue
    exact .zero hvalue.symm
  have hpos : 0 < n := Nat.pos_of_ne_zero hn
  have hcompare : compare (n : Int) 0 = .gt := compare_gt_iff_gt.mpr (mod_cast hpos)
  obtain ⟨m, f, hlt, hle, hmost, hm⟩ := hq
  have hm' : 0 < m := by
    apply Nat.pos_of_ne_zero
    rintro rfl
    have hprod := mul_pos (Nat.cast_pos.mpr hpos) (two_zpow_pos e)
    rw [hvalue, ← hm, Nat.cast_zero, zero_mul] at hprod
    exact hprod.false
  obtain ⟨k, hk⟩ := exists_canonical hm' hlt hle
  have hscale : ((m * 2 ^ k : Nat) : ℚ) * 2 ^ (f - k) = q := by
    rw [← hm, zpow_sub₀ two_ne_zero, zpow_natCast]
    push_cast
    field_simp
  simp only [UnpackedFloat.normalize, hcompare, Int.toNat_natCast]
  rw [hk.round_eq .positive (hvalue.trans hscale.symm)]
  exact .finite hk (by omega) hscale

theorem decreaseExponent_value (m : Nat) {e f : Int} (h : f ≤ e) :
    ∃ k : Nat, decreaseExponent m e f = (m * 2 ^ k, f) ∧
      ((m * 2 ^ k : Nat) : ℚ) * 2 ^ f = m * 2 ^ e := by
  obtain ⟨k, rfl⟩ : ∃ k : Nat, e = f + k := ⟨(e - f).toNat, by omega⟩
  refine ⟨k, ?_, ?_⟩
  · have hamount : (f + k - f).toNat = k := by omega
    simp only [decreaseExponent, hamount, Nat.shiftLeft_eq, Int.add_sub_cancel]
  · rw [zpow_add₀ two_ne_zero, zpow_natCast]
    push_cast
    ring

theorem HasValue.add (hu : HasValue .positive q u) (hv : HasValue .positive r v)
    (h : Fits (q + r)) : HasValue .positive (q + r) (UnpackedFloat.add Format.binary64 u v) := by
  cases hu with
  | zero hq =>
    rw [hq, Rat.zero_add]
    cases hv with
    | zero hr => exact .zero hr
    | finite hn hf hr => exact .finite hn hf hr
  | @finite m e hm he hq =>
    cases hv with
    | zero hr =>
      rw [hr, Rat.add_zero]
      exact .finite hm he hq
    | @finite n f hn hf hr =>
      obtain ⟨k, hk, hmk⟩ := decreaseExponent_value m (Int.min_le_left e f)
      obtain ⟨l, hl, hnl⟩ := decreaseExponent_value n (Int.min_le_right e f)
      simp only [UnpackedFloat.add, hk, hl, Sign.apply]
      rw [← Nat.cast_add]
      apply hasValue_normalize h
      rw [Nat.cast_add, add_mul, hmk, hnl, hq, hr]

theorem HasValue.sub (hu : HasValue .positive q u) (hv : HasValue .positive r v) (hle : r ≤ q)
    (h : Fits (q - r)) : HasValue .positive (q - r) (UnpackedFloat.sub Format.binary64 u v) := by
  cases hv with
  | zero hr =>
    have hsame : q - r = q := by linarith
    rw [hsame]
    cases hu with
    | zero hq => exact .zero hq
    | finite hm he hq => exact .finite hm he hq
  | @finite n f hn hf hr =>
    cases hu with
    | zero hq =>
      have hpos := mul_pos (Nat.cast_pos.mpr hn.pos) (two_zpow_pos f)
      rw [hr] at hpos
      linarith
    | @finite m e hm he hq =>
      obtain ⟨k, hk, hmk⟩ := decreaseExponent_value m (Int.min_le_left e f)
      obtain ⟨l, hl, hnl⟩ := decreaseExponent_value n (Int.min_le_right e f)
      have hcast : n * 2 ^ l ≤ m * 2 ^ k := by
        rw [← hr, ← hq, ← hmk, ← hnl, mul_le_mul_iff_left₀ (two_zpow_pos _)] at hle
        exact_mod_cast hle
      simp only [UnpackedFloat.sub, hk, hl, Sign.apply]
      rw [← Nat.cast_sub hcast]
      apply hasValue_normalize h
      rw [Nat.cast_sub hcast, sub_mul, hmk, hnl, hq, hr]

end

section

variable {s : Sign} {q : ℚ} {u : UnpackedFloat}

theorem Locates.mantissa_eq {em : ExtendedMantissa} {t : ℚ} (h : Locates em t) :
    em.mantissa = ⌊t⌋₊ := by
  have hpos : 0 ≤ t := le_trans (Nat.cast_nonneg _) h.le
  exact ((Nat.floor_eq_iff hpos).mpr ⟨h.le, h.lt⟩).symm

/-- Below `2 ^ 52` a number is a fraction of its mantissa. -/
theorem Canonical.exists_div {m : Nat} {e : Int} (h : Canonical m e)
    (hlt : (m : ℚ) * 2 ^ e < 2 ^ 52) : ∃ k : Nat, e = -k ∧ (m : ℚ) * 2 ^ e = m / 2 ^ k := by
  have hneg : e < 0 := by
    rw [← h.lt_two_zpow_iff (by norm_num)]
    exact hlt
  obtain ⟨k, rfl⟩ : ∃ k : Nat, e = -k := ⟨(-e).toNat, by omega⟩
  refine ⟨k, rfl, ?_⟩
  rw [zpow_neg, zpow_natCast, div_eq_mul_inv]

/-- The bits before the point. -/
theorem HasValue.toUInt64 (h : HasValue .positive q u) (hq : q < 2 ^ 52) :
    u.toUInt64.toNat = ⌊q⌋₊ := by
  cases h with
  | zero hzero =>
    rw [hzero, Nat.floor_zero]
    rfl
  | @finite m e hm he hvalue =>
    subst hvalue
    obtain ⟨k, rfl, hquotient⟩ := hm.exists_div hq
    rw [hquotient] at hq ⊢
    have hfloor := ((locates_exact m).shiftRight k).mantissa_eq
    have hless : ⌊(m : ℚ) / 2 ^ k⌋₊ < 2 ^ 64 := by
      rw [Nat.floor_lt (by positivity)]
      push_cast
      linarith
    have hup : (-(k : Int)).toNat = 0 := by omega
    have hdown : (0 - -(k : Int)).toNat = k := by omega
    have hint : UnpackedFloat.toInt 0 (UInt64.size - 1) (.finite .positive m (-k) hm.pos) =
        (⌊(m : ℚ) / 2 ^ k⌋₊ : Int) := by
      rw [← hfloor]
      simp only [UnpackedFloat.toInt, roundToInt, decreaseExponent, hup, shiftToExponent,
        Nat.cast_zero, Int.sub_zero, hdown, Nat.shiftLeft_zero, Sign.apply]
    rw [UnpackedFloat.toUInt64, hint, Int.toNat_natCast, UInt64.toNat_ofNatClamp_of_lt hless]

theorem fits_natCast {n : Nat} (hn : n ≤ 2 ^ 52) : Fits n :=
  ⟨n, 0, by omega, by norm_num, by norm_num, by norm_num⟩

/-- The bits after the point are bits of the number. -/
theorem HasValue.fits_sub_floor (h : HasValue s q u) (hq : q < 2 ^ 52) : Fits (q - ⌊q⌋₊) := by
  cases h with
  | zero hzero => exact ⟨0, 0, by norm_num, by norm_num, by norm_num, by simp [hzero]⟩
  | @finite m e hm he hvalue =>
    subst hvalue
    obtain ⟨k, rfl, hquotient⟩ := hm.exists_div hq
    have hle := hm.le
    have hfloor : ⌊(m : ℚ) / 2 ^ k⌋₊ = m / 2 ^ k := by
      have hdiv := Nat.floor_div_eq_div (K := ℚ) m (2 ^ k)
      rwa [Nat.cast_pow, Nat.cast_ofNat] at hdiv
    have hparts : ((2 ^ k * (m / 2 ^ k) + m % 2 ^ k : Nat) : ℚ) = m := by rw [Nat.div_add_mod]
    refine ⟨m % 2 ^ k, -k, (Nat.mod_le _ _).trans_lt hm.lt, hle, he, ?_⟩
    rw [hquotient, hfloor, zpow_neg, zpow_natCast]
    push_cast at hparts ⊢
    field_simp
    linarith

/-- From `2 ^ 52` on there are no bits after the point. -/
theorem HasValue.eq_natCast (h : HasValue s q u) (hq : 2 ^ 52 ≤ q) : ∃ n : Nat, q = n := by
  cases h with
  | zero hzero =>
    rw [hzero] at hq
    norm_num at hq
  | @finite m e hm he hvalue =>
    have hnonneg : ¬e < 0 := by
      rw [← hm.lt_two_zpow_iff (by norm_num), hvalue]
      exact hq.not_gt
    obtain ⟨k, rfl⟩ : ∃ k : Nat, e = k := ⟨e.toNat, by omega⟩
    refine ⟨m * 2 ^ k, ?_⟩
    rw [← hvalue, zpow_natCast]
    push_cast
    rfl

theorem hasValue_ofUInt64 {n : UInt64} (hn : n.toNat ≤ 2 ^ 52) :
    HasValue .positive n.toNat (UnpackedFloat.ofUInt64 Format.binary64 n) :=
  hasValue_normalize (fits_natCast hn) (by norm_num)

end

section

variable {x y : Float} {s : Sign} {q r : ℚ}

theorem HasValue.unpackSign (h : HasValue s q x.toModel.unpack) :
    Sign.ofBitVec (@unpackSign Format.binary64 x.toBits.toBitVec) = s := by
  have hreads := reads_unpack x.toBits.toBitVec
  change Reads _ _ _ x.toModel.unpack at hreads
  generalize x.toModel.unpack = u at h hreads
  cases h with
  | zero => cases hreads; rfl
  | finite => cases hreads <;> rfl

/-- The first bit is the sign. -/
theorem HasValue.toBits_shiftRight_iff (h : HasValue s q x.toModel.unpack) :
    x.toBits >>> 63 = 1 ↔ s = .negative := by
  have hbit : (@Float.Model.UnpackedFloat.unpackSign Format.binary64
      x.toBits.toBitVec).toNat = x.toBits.toNat >>> 63 % 2 := by
    simp [Float.Model.UnpackedFloat.unpackSign]
  have hone : x.toBits >>> 63 = 1 ↔ x.toBits.toNat >>> 63 = 1 := by
    rw [← UInt64.toNat_inj, UInt64.toNat_shiftRight]
    rfl
  have hless := x.toBits.toNat_lt
  rw [Nat.shiftRight_eq_div_pow] at hbit hone
  rw [hone, ← h.unpackSign, Sign.ofBitVec]
  generalize @Float.Model.UnpackedFloat.unpackSign Format.binary64 _ = b at hbit
  split_ifs with hzero
  · have hzero' : b.toNat = 0 := by rw [hzero]; rfl
    exact iff_of_false (by omega) nofun
  · have hone' : b.toNat ≠ 0 := fun h => hzero (BitVec.eq_of_toNat_eq h)
    exact iff_of_true (by omega) rfl

theorem HasValue.withSign (h : HasValue s q x.toModel.unpack)
    (hy : HasValue .positive r y.toModel.unpack) :
    HasValue s r (if x.toBits >>> 63 = 1 then -y else y).toModel.unpack := by
  cases s with
  | negative =>
    rw [if_pos (h.toBits_shiftRight_iff.mpr rfl)]
    exact hy.neg.pack
  | positive =>
    rw [if_neg (h.toBits_shiftRight_iff.not.mpr nofun)]
    exact hy

theorem HasValue.whole (h : HasValue .positive q x.toModel.unpack) (hq : q < 2 ^ 52) :
    HasValue .positive ⌊q⌋₊ x.toUInt64.toFloat.toModel.unpack := by
  have hcast : x.toUInt64.toNat = ⌊q⌋₊ := h.toUInt64 hq
  have hle : ⌊q⌋₊ ≤ 2 ^ 52 := Nat.floor_le_of_le (by push_cast; exact hq.le)
  rw [← hcast] at hle ⊢
  exact (hasValue_ofUInt64 hle).pack

/-- The rest after the whole part decides between it and the next whole number. -/
theorem HasValue.nearest (h : HasValue .positive q x.toModel.unpack) (hq : q < 2 ^ 52)
    (hy : HasValue .positive ⌊q⌋₊ y.toModel.unpack) :
    HasValue .positive ⌊q + 1 / 2⌋₊ (if x - y < 0.5 then y else y + 1).toModel.unpack := by
  have hnonneg := h.nonneg
  have hbelow := Nat.floor_le hnonneg
  have habove := Nat.lt_floor_add_one q
  have hrest : HasValue .positive (q - ⌊q⌋₊) (x - y).toModel.unpack :=
    (h.sub hy hbelow (h.fits_sub_floor hq)).pack
  split_ifs with hhalf
  · rw [hrest.lt_half_iff] at hhalf
    have hsame : ⌊q + 1 / 2⌋₊ = ⌊q⌋₊ := by
      rw [Nat.floor_eq_iff (by linarith)]
      constructor <;> linarith
    rwa [hsame]
  · rw [hrest.lt_half_iff] at hhalf
    have hnext : ⌊q + 1 / 2⌋₊ = ⌊q⌋₊ + 1 := by
      rw [Nat.floor_eq_iff (by linarith)]
      push_cast
      constructor <;> linarith
    have hfits : Fits (⌊q⌋₊ + 1 : Nat) := by
      apply fits_natCast
      rw [Nat.succ_le_iff, Nat.floor_lt hnonneg]
      exact_mod_cast hq
    rw [hnext]
    push_cast at hfits ⊢
    exact (hy.add hasValue_one hfits).pack

theorem roundHalfAway_of_not_finite (h : x.isFinite = false) : roundHalfAway x = x :=
  if_neg (not_abs_lt_of_not_finite h rfl)

/-- The nearest whole number; a half goes away from zero. -/
theorem HasValue.roundHalfAway (h : HasValue s q x.toModel.unpack) :
    HasValue s ⌊q + 1 / 2⌋₊ (roundHalfAway x).toModel.unpack := by
  have habs : HasValue .positive q x.abs.toModel.unpack := h.abs.pack
  unfold DenseLinear.roundHalfAway
  by_cases hsmall : q < 2 ^ 52
  · rw [if_pos (habs.lt_two_pow_iff.mpr hsmall)]
    exact h.withSign (habs.nearest hsmall (habs.whole hsmall))
  · obtain ⟨n, rfl⟩ := h.eq_natCast (not_lt.mp hsmall)
    have hfloor : ⌊(n : ℚ) + 1 / 2⌋₊ = n := by
      rw [Nat.floor_eq_iff (by linarith)]
      constructor <;> linarith
    rw [if_neg (habs.lt_two_pow_iff.not.mpr hsmall), hfloor]
    exact h

theorem HasValue.roundHalfAway_of_lt_half (h : HasValue s q x.toModel.unpack) (hq : q < 1 / 2) :
    (DenseLinear.roundHalfAway x).toModel.unpack = .zero s := by
  have hwhole := h.roundHalfAway
  have hfloor : ⌊q + 1 / 2⌋₊ = 0 := by
    rw [Nat.floor_eq_zero]
    linarith
  rw [hfloor, Nat.cast_zero] at hwhole
  exact hwhole.eq_zero

end

end DenseLinear.Binary64
