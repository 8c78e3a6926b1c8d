import Mathlib
import DenseLinear.Scalar

/-!
# Machine numbers

Where the arithmetic of binary64 numbers does not round. A number is a word of three fields, and is
found again from the sign, mantissa and exponent that it stands for, since the mantissa of a finite
number other than zero has all bits that its exponent leaves room for. So a product with one is
shifted back to where it was, a quotient of equal numbers is one, and what is left of a number after
itself is taken away is zero. Two laws hold of all numbers, finite or not: factors commute, and the
negative zero is neutral in sums. The positive zero is neutral but for a negative zero.
-/

namespace DenseLinear.Binary64

open Float.Model Float.Model.UnpackedFloat

/-- A word is made up of its sign, its exponent and its mantissa. -/
theorem packComponents_fields (b : BitVec Format.binary64.numBits) :
    packComponents Format.binary64 (Sign.ofBitVec (unpackSign b)) (unpackExponent b)
      (unpackMantissa b) = b := by
  have hsign : (Sign.ofBitVec (unpackSign b)).toBitVec = unpackSign b := by
    generalize unpackSign b = c
    revert c
    decide
  unfold packComponents
  rw [hsign]
  apply BitVec.eq_of_getLsbD_eq
  intro i hi
  have hi64 : i < 64 := hi
  simp only [BitVec.getLsbD_append, unpackSign, unpackExponent, unpackMantissa, BitVec.getLsbD_cast,
    BitVec.getLsbD_extractLsb]
  split_ifs with hm he
  · rw [decide_eq_true (by omega), Bool.true_and, Nat.zero_add]
  · rw [decide_eq_true (by omega), Bool.true_and]
    congr 1
    omega
  · rw [decide_eq_true (by omega), Bool.true_and]
    congr 1
    omega

theorem toNat_pos {n : Nat} {b : BitVec n} (h : b ≠ 0) : 0 < b.toNat :=
  b.toNat_pos.mpr (b.pos_iff_ne_zero.mpr h)

theorem toNat_one_append (m : BitVec 52) : (1#1 ++ m).toNat = 2 ^ 52 + m.toNat := by
  rw [BitVec.toNat_append, ← Nat.shiftLeft_add_eq_or_of_lt m.isLt]
  rfl

/-- What a word with these fields stands for. -/
inductive Reads (s : Sign) (exponent : BitVec 11) (mantissa : BitVec 52) : UnpackedFloat → Prop where
  | infinity (he : exponent = -1) (hm : mantissa = 0) : Reads s exponent mantissa (.infinity s)
  | notANumber (he : exponent = -1) (hm : mantissa ≠ 0) : Reads s exponent mantissa .notANumber
  | zero (he : exponent = 0) (hm : mantissa = 0) : Reads s exponent mantissa (.zero s)
  | subnormal (he : exponent = 0) (hm : 0 < mantissa.toNat) :
      Reads s exponent mantissa (.finite s mantissa.toNat (-1074) hm)
  | normal (he : exponent ≠ -1) (he' : exponent ≠ 0) (hm : 0 < 2 ^ 52 + mantissa.toNat) :
      Reads s exponent mantissa
        (.finite s (2 ^ 52 + mantissa.toNat) (exponent.toNat - 1075) hm)

theorem reads_unpack (b : BitVec Format.binary64.numBits) :
    Reads (Sign.ofBitVec (unpackSign b)) (unpackExponent b) (unpackMantissa b)
      (UnpackedFloat.unpack Format.binary64 b) := by
  unfold UnpackedFloat.unpack
  dsimp only
  split_ifs with he hm he' hm
  · exact .infinity he hm
  · exact .notANumber he hm
  · exact .zero he' hm
  · have hpos : 0 < (unpackMantissa b).toNat := toNat_pos hm
    have hexponent : ((unpackExponent b).toNat : Int) -
        (Format.binary64.exponentBias + Format.binary64.mantissaBitsWithoutImplicit) + 1 =
          -1074 := by
      rw [he']
      rfl
    simp only [hexponent]
    exact .subnormal he' hpos
  · have hpos : 0 < 2 ^ 52 + (unpackMantissa b).toNat := by omega
    simp only [toNat_one_append]
    exact .normal he he' hpos

/-- The mantissa has 53 bits, or fewer at the least exponent. -/
structure Canonical (mantissa : Nat) (exponent : Int) : Prop where
  pos : 0 < mantissa
  lt : mantissa < 2 ^ 53
  le : -1074 ≤ exponent
  full : 2 ^ 52 ≤ mantissa ∨ exponent = -1074

theorem Reads.canonical {s s' : Sign} {exponent : BitVec 11} {mantissa : BitVec 52} {m : Nat}
    {e : Int} {hm : 0 < m} (h : Reads s exponent mantissa (.finite s' m e hm)) :
    Canonical m e := by
  have hlt : mantissa.toNat < 2 ^ 52 := mantissa.isLt
  cases h with
  | subnormal => exact ⟨hm, by omega, by omega, .inr rfl⟩
  | normal he he' =>
    have hpos := toNat_pos he'
    exact ⟨hm, by omega, by omega, .inl (by omega)⟩

theorem canonical_of_unpack {x : Float.Model} {s : Sign} {m : Nat} {e : Int} {hm : 0 < m}
    (h : x.unpack = .finite s m e hm) : Canonical m e := by
  have hreads := reads_unpack x.toBits.toBitVec
  change Reads _ _ _ x.unpack at hreads
  rw [h] at hreads
  exact hreads.canonical

theorem Reads.pack_eq {s : Sign} {exponent : BitVec 11} {mantissa : BitVec 52} {u : UnpackedFloat}
    (h : Reads s exponent mantissa u) (hu : u ≠ .notANumber) :
    UnpackedFloat.pack Format.binary64 u = packComponents Format.binary64 s exponent mantissa := by
  cases h with
  | infinity he hm => rw [he, hm]; rfl
  | notANumber => exact absurd rfl hu
  | zero he hm => rw [he, hm]; rfl
  | subnormal he hm =>
    have hlog : mantissa.toNat.log2 < 52 := (Nat.log2_lt hm.ne').mpr mantissa.isLt
    have hbits : ¬mantissa.toNat.log2 + 1 = Format.binary64.mantissaBits := by
      change ¬_ = 53
      omega
    rw [UnpackedFloat.pack, if_neg (by decide), if_neg hbits, he, BitVec.ofNat_toNat,
      BitVec.setWidth_eq]
    rfl
  | normal he he' hm =>
    have hlt : mantissa.toNat < 2 ^ 52 := mantissa.isLt
    have hlog : (2 ^ 52 + mantissa.toNat).log2 = 52 :=
      (Nat.log2_eq_iff hm.ne').mpr ⟨by omega, by omega⟩
    have hbiased : ((exponent.toNat : Int) - 1075 + Format.binary64.exponentBias +
        Format.binary64.mantissaBitsWithoutImplicit).toNat = exponent.toNat := by
      change ((exponent.toNat : Int) - 1075 + 1023 + 52).toNat = _
      omega
    have hmost : exponent.toNat ≠ 2047 := fun h => he (BitVec.eq_of_toNat_eq h)
    have hfits : ¬2 ^ Format.binary64.exponentBits ≤ exponent.toNat + 1 := by
      have hexponent := exponent.isLt
      change ¬2048 ≤ _
      omega
    have hmantissa : BitVec.ofNat 52 (2 ^ 52 + mantissa.toNat) = mantissa := by
      apply BitVec.eq_of_toNat_eq
      rw [BitVec.toNat_ofNat, Nat.add_mod_left, Nat.mod_eq_of_lt hlt]
    have hbits : 52 + 1 = Format.binary64.mantissaBits := rfl
    simp only [UnpackedFloat.pack, hbiased, if_neg hfits, hlog]
    rw [if_pos hbits, hmantissa, BitVec.ofNat_toNat, BitVec.setWidth_eq]

theorem pack_unpack (x : Float.Model) : Float.Model.pack x.unpack = x := by
  obtain ⟨⟨b⟩, hvalid⟩ := x
  have hreads := reads_unpack b
  have hbits : UnpackedFloat.pack Format.binary64 (UnpackedFloat.unpack Format.binary64 b) = b := by
    generalize UnpackedFloat.unpack Format.binary64 b = u at hreads
    by_cases hu : u = .notANumber
    · subst hu
      cases hreads with
      | notANumber he hm => exact (hvalid.eq_packedNaN he hm).symm
    · rw [hreads.pack_eq hu, packComponents_fields]
  unfold Float.Model.pack Float.Model.unpack
  congr 2

/-- No bit is lost. -/
theorem shiftRight_mul_two_pow (m k : Nat) :
    (⟨m * 2 ^ k, false, false⟩ : ExtendedMantissa) >>> k = ⟨m, false, false⟩ := by
  change Nat.repeat ExtendedMantissa.shiftRightOne k _ = _
  induction k generalizing m with
  | zero => simp [Nat.repeat]
  | succ k ih =>
    have htwice : m * 2 ^ (k + 1) = 2 * m * 2 ^ k := by ring
    rw [Nat.repeat, htwice, ih]
    simp [ExtendedMantissa.shiftRightOne]

theorem totalExponent_mul_two_pow {m : Nat} (hm : m ≠ 0) (k : Nat) (e : Int) :
    totalExponent (m * 2 ^ k) (e - k) = totalExponent m e := by
  have hlog : (m * 2 ^ k).log2 = m.log2 + k := by
    induction k with
    | zero => simp
    | succ k ih =>
      have htwice : m * 2 ^ (k + 1) = 2 * (m * 2 ^ k) := by ring
      have hne : m * 2 ^ k ≠ 0 := by positivity
      rw [htwice, Nat.log2_two_mul hne, ih, Nat.add_assoc]
  unfold totalExponent
  rw [hlog]
  omega

theorem Canonical.targetExponent_eq {m : Nat} {e : Int} (h : Canonical m e) :
    Format.binary64.targetExponent (totalExponent m e) = e := by
  have hm := h.pos.ne'
  have hlt : m.log2 < 53 := (Nat.log2_lt hm).mpr h.lt
  have hle := h.le
  have hfull : 52 ≤ m.log2 ∨ e = -1074 := h.full.imp_left (Nat.le_log2 hm).mpr
  change max ((m.log2 : Int) + 1 + e - 53) (-1074) = e
  omega

theorem Canonical.shiftToTargetExponent_eq {m : Nat} {e : Int} (h : Canonical m e) (k : Nat) :
    shiftToTargetExponent Format.binary64 (m * 2 ^ k) (e - k) .exact =
      (⟨m, false, false⟩, e) := by
  have hamount : (e - (e - k)).toNat = k := by omega
  simp only [shiftToTargetExponent, shiftToExponent, totalExponent_mul_two_pow h.pos.ne',
    h.targetExponent_eq, hamount, ExtendedMantissa.ofMantissaAndAccuracy, shiftRight_mul_two_pow,
    Int.sub_add_cancel]

theorem Canonical.roundWithAccuracy_eq {m : Nat} {e : Int} (h : Canonical m e) (s : Sign) (k : Nat) :
    roundWithAccuracy Format.binary64 s (m * 2 ^ k) (e - k) .exact = .finite s m e h.pos := by
  have hagain := h.shiftToTargetExponent_eq 0
  rw [pow_zero, mul_one, Nat.cast_zero, Int.sub_zero] at hagain
  simp only [roundWithAccuracy, h.shiftToTargetExponent_eq k, ExtendedMantissa.roundedMantissa,
    ExtendedMantissa.accuracy, Accuracy.roundToNearestEven, hagain, dif_neg h.pos.ne']

section

variable {x z : Float}

theorem toModel_add (x y : Float) : (x + y).toModel =
    .pack (UnpackedFloat.add Format.binary64 x.toModel.unpack y.toModel.unpack) := rfl

theorem toModel_sub (x y : Float) : (x - y).toModel =
    .pack (UnpackedFloat.sub Format.binary64 x.toModel.unpack y.toModel.unpack) := rfl

theorem toModel_mul (x y : Float) : (x * y).toModel =
    .pack (UnpackedFloat.mul Format.binary64 x.toModel.unpack y.toModel.unpack) := rfl

theorem toModel_div (x y : Float) : (x / y).toModel =
    .pack (UnpackedFloat.div Format.binary64 x.toModel.unpack y.toModel.unpack) := rfl

theorem eq_of_toModel {y : Float} (h : x.toModel = y.toModel) : x = y := by
  cases x
  cases y
  congr 1

def IsZero (x : Float) : Prop := x = 0 ∨ x = -0

theorem isZero_of_toModel {s : Sign} (h : x.toModel = .pack (.zero s)) : IsZero x := by
  cases s with
  | positive => exact .inl (eq_of_toModel h)
  | negative => exact .inr (eq_of_toModel h)

theorem isZero_iff : IsZero x ↔ ∃ s, x.toModel.unpack = .zero s := by
  constructor
  · rintro (rfl | rfl)
    · exact ⟨.positive, rfl⟩
    · exact ⟨.negative, rfl⟩
  · rintro ⟨s, h⟩
    apply isZero_of_toModel (s := s)
    rw [← h, pack_unpack]

theorem exists_finite (hx : x.isFinite = true) (hne : ¬IsZero x) :
    ∃ s m e hm, x.toModel.unpack = .finite s m e hm := by
  rw [isZero_iff] at hne
  change x.toModel.unpack.isFinite = true at hx
  generalize x.toModel.unpack = u at hx hne
  cases u with
  | infinity => cases hx
  | notANumber => cases hx
  | zero s => exact absurd ⟨s, rfl⟩ hne
  | finite s m e hm => exact ⟨s, m, e, hm, rfl⟩

theorem unpack_one :
    (1 : Float).toModel.unpack = .finite .positive (2 ^ 52) (-52) (by decide) := rfl

theorem not_isZero_one : ¬IsZero 1 := by
  rw [isZero_iff, unpack_one]
  rintro ⟨s, h⟩
  cases h

theorem mul_positive (s : Sign) : s * .positive = s := by
  cases s <;> rfl

theorem mul_one (hx : x.isFinite = true) : x * 1 = x := by
  apply eq_of_toModel
  rw [toModel_mul, unpack_one]
  by_cases hzero : IsZero x
  · obtain ⟨s, h⟩ := isZero_iff.mp hzero
    rw [h]
    change Float.Model.pack (.zero (s * .positive)) = _
    rw [mul_positive, ← h, pack_unpack]
  · obtain ⟨s, m, e, hm, h⟩ := exists_finite hx hzero
    rw [h]
    change Float.Model.pack
      (roundWithAccuracy Format.binary64 (s * .positive) (m * 2 ^ 52) (e - (52 : Nat)) .exact) = _
    rw [mul_positive, (canonical_of_unpack h).roundWithAccuracy_eq, ← h, pack_unpack]

theorem div_self (hx : x.isFinite = true) (hne : ¬IsZero x) : x / x = 1 := by
  obtain ⟨s, m, e, hm, h⟩ := exists_finite hx hne
  have hsign : s / s = .positive := by
    cases s <;> rfl
  have hcore : divCore Format.binary64 m e m e = (2 ^ 53, -53, .exact) := by
    have htarget : min (0 : Int) (Format.binary64.targetExponent 0) = -53 := by decide
    have hshift : m <<< 53 = m * 2 ^ 53 := Nat.shiftLeft_eq m 53
    simp only [divCore, Int.sub_self, htarget]
    change (m <<< 53 / m, (-53 : Int), accuracyOfFraction (m <<< 53 % m) m) = _
    rw [hshift, Nat.mul_div_cancel_left _ hm, Nat.mul_mod_right]
    rfl
  apply eq_of_toModel
  rw [toModel_div, h]
  simp only [UnpackedFloat.div, hcore, hsign]
  rfl

theorem isZero_sub_self (hx : x.isFinite = true) : IsZero (x - x) := by
  by_cases hzero : IsZero x
  · obtain ⟨s, h⟩ := isZero_iff.mp hzero
    apply isZero_of_toModel (s := .positive)
    rw [toModel_sub, h]
    cases s <;> rfl
  · obtain ⟨s, m, e, hm, h⟩ := exists_finite hx hzero
    apply isZero_of_toModel (s := .positive)
    rw [toModel_sub, h]
    simp only [UnpackedFloat.sub, Int.sub_self]
    rfl

theorem isZero_mul (hx : x.isFinite = true) (hz : IsZero z) : IsZero (x * z) := by
  obtain ⟨t, ht⟩ := isZero_iff.mp hz
  by_cases hzero : IsZero x
  · obtain ⟨s, h⟩ := isZero_iff.mp hzero
    apply isZero_of_toModel (s := s * t)
    rw [toModel_mul, h, ht]
    rfl
  · obtain ⟨s, m, e, hm, h⟩ := exists_finite hx hzero
    apply isZero_of_toModel (s := s * t)
    rw [toModel_mul, h, ht]
    rfl

theorem isZero_div (hz : IsZero z) (hx : x.isFinite = true) (hne : ¬IsZero x) : IsZero (z / x) := by
  obtain ⟨t, ht⟩ := isZero_iff.mp hz
  obtain ⟨s, m, e, hm, h⟩ := exists_finite hx hne
  apply isZero_of_toModel (s := t / s)
  rw [toModel_div, h, ht]
  rfl

theorem sub_zero (hx : x.isFinite = true) (hne : ¬IsZero x) (hz : IsZero z) : x - z = x := by
  obtain ⟨t, ht⟩ := isZero_iff.mp hz
  obtain ⟨s, m, e, hm, h⟩ := exists_finite hx hne
  apply eq_of_toModel
  rw [toModel_sub, h, ht]
  change Float.Model.pack (.finite s m e hm) = _
  rw [← h, pack_unpack]

theorem isZero_sub (hx : IsZero x) (hz : IsZero z) : IsZero (x - z) := by
  rcases hx with rfl | rfl <;> rcases hz with rfl | rfl
  · exact .inl rfl
  · exact .inl rfl
  · exact .inr rfl
  · exact .inl rfl

theorem not_significant_of_isZero (hz : IsZero z) : ¬Significant z := by
  rcases hz with rfl | rfl <;> decide

end

section

variable (x y : Float)

theorem mul_comm : x * y = y * x := by
  have hsign (s t : Sign) : s * t = t * s := by
    cases s <;> cases t <;> rfl
  have hmul (u v : UnpackedFloat) :
      UnpackedFloat.mul Format.binary64 u v = UnpackedFloat.mul Format.binary64 v u := by
    cases u <;> cases v <;> simp only [UnpackedFloat.mul, hsign, Nat.mul_comm, Int.add_comm]
  apply eq_of_toModel
  rw [toModel_mul, toModel_mul, hmul]

theorem neg_zero_add : -0 + x = x := by
  have hadd : UnpackedFloat.add Format.binary64 (.zero .negative) x.toModel.unpack =
      x.toModel.unpack := by
    cases x.toModel.unpack with
    | infinity s => rfl
    | notANumber => rfl
    | zero s => cases s <;> rfl
    | finite s m e hm => rfl
  apply eq_of_toModel
  rw [toModel_add]
  exact (congrArg _ hadd).trans (pack_unpack x.toModel)

variable {x} in
theorem zero_add (hx : x ≠ -0) : 0 + x = x := by
  have hadd : UnpackedFloat.add Format.binary64 (.zero .positive) x.toModel.unpack =
      x.toModel.unpack := by
    cases h : x.toModel.unpack with
    | infinity s => rfl
    | notANumber => rfl
    | zero s =>
      cases s with
      | positive => rfl
      | negative =>
        refine absurd (eq_of_toModel ?_) hx
        rw [← pack_unpack x.toModel, h]
        rfl
    | finite s m e hm => rfl
  apply eq_of_toModel
  rw [toModel_add]
  exact (congrArg _ hadd).trans (pack_unpack x.toModel)

theorem zero_add_neg_zero : (0 : Float) + -0 = 0 := rfl

theorem zero_ne_neg_zero : (0 : Float) ≠ -0 := by decide

end

end DenseLinear.Binary64
