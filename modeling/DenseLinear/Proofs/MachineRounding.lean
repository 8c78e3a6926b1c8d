import DenseLinear.Proofs.MachineNumbers

/-!
# Rounded products and quotients

The machine rounds an exact product or quotient to the nearest number with 53 bits, of two equally
near ones to the even one. What it cuts off is kept in two bits, which say where between two
neighbouring mantissas the exact value lies. So a result is zero up to half of the least number, an
infinity from half a step above the greatest number on, and within half a step otherwise.
-/

namespace DenseLinear.Binary64

open Float.Model Float.Model.UnpackedFloat

section

theorem unpackSign_packComponents {spec : Format} (s : Sign) (exponent : BitVec spec.exponentBits)
    (mantissa : BitVec spec.mantissaBitsWithoutImplicit) :
    unpackSign (packComponents spec s exponent mantissa) = s.toBitVec := by
  ext i hi
  obtain rfl : i = 0 := by omega
  simp [unpackSign, packComponents, BitVec.getLsbD_append, BitVec.getElem_append,
    BitVec.getLsbD_eq_getElem]

/-- The packed fields are read as what they stand for. -/
theorem Reads.unpack_packComponents {s : Sign} {exponent : BitVec 11} {mantissa : BitVec 52}
    {u : UnpackedFloat} (h : Reads s exponent mantissa u) :
    UnpackedFloat.unpack Format.binary64
      (packComponents Format.binary64 s exponent mantissa) = u := by
  have hsign : Sign.ofBitVec s.toBitVec = s := by
    cases s <;> rfl
  unfold UnpackedFloat.unpack
  simp only [unpackSign_packComponents, unpackExponent_packComponents,
    unpackMantissa_packComponents, hsign]
  cases h with
  | infinity he hm => exact (if_pos he).trans (if_pos hm)
  | notANumber he hm => exact (if_pos he).trans (if_neg hm)
  | zero he hm =>
    have hmost : exponent ≠ -1 := by rw [he]; decide
    exact (if_neg hmost).trans ((if_pos he).trans (dif_pos hm))
  | subnormal he hm =>
    have hmost : exponent ≠ -1 := by rw [he]; decide
    have hne : mantissa ≠ 0 := by
      rintro rfl
      exact absurd hm (by decide)
    have hexponent : (exponent.toNat : Int) -
        (Format.binary64.exponentBias + Format.binary64.mantissaBitsWithoutImplicit) + 1 =
          -1074 := by
      rw [he]
      rfl
    simp only [hexponent]
    exact (if_neg hmost).trans ((if_pos he).trans (dif_neg hne))
  | normal he he' hm =>
    simp only [toNat_one_append]
    exact (if_neg he).trans (if_neg he')

theorem unpack_pack_zero (s : Sign) : (Float.Model.pack (.zero s)).unpack = .zero s := by
  cases s <;> rfl

theorem unpack_pack_infinity (s : Sign) :
    (Float.Model.pack (.infinity s)).unpack = .infinity s := by
  cases s <;> rfl

variable {s : Sign} {m : Nat} {e : Int}

theorem unpack_pack_of_lt (hm : 0 < m) (he : 971 < e) :
    (Float.Model.pack (.finite s m e hm)).unpack = .infinity s := by
  have hpack : UnpackedFloat.pack Format.binary64 (.finite s m e hm) =
      packedInfinity Format.binary64 s := by
    apply if_pos
    change 2 ^ 11 ≤ (e + 1023 + 52).toNat + 1
    omega
  have hunpack : (Float.Model.pack (.finite s m e hm)).unpack = UnpackedFloat.unpack
      Format.binary64 (UnpackedFloat.pack Format.binary64 (.finite s m e hm)) := rfl
  rw [hunpack, hpack]
  exact unpack_pack_infinity s

theorem Reads.exponent_le {s' : Sign} {exponent : BitVec 11} {mantissa : BitVec 52} {hm : 0 < m}
    (h : Reads s exponent mantissa (.finite s' m e hm)) : e ≤ 971 := by
  have hlt := exponent.isLt
  cases h with
  | subnormal => omega
  | normal he =>
    have hmost : exponent.toNat ≠ 2047 := fun h => he (BitVec.eq_of_toNat_eq h)
    omega

theorem exists_reads (h : Canonical m e) (he : e ≤ 971) (s : Sign) :
    ∃ exponent mantissa, Reads s exponent mantissa (.finite s m e h.pos) := by
  have hle := h.le
  have hlt := h.lt
  by_cases hfull : 2 ^ 52 ≤ m
  · have hexponent : (BitVec.ofNat 11 (e + 1075).toNat).toNat = (e + 1075).toNat := by
      rw [BitVec.toNat_ofNat, Nat.mod_eq_of_lt (by omega)]
    have hmantissa : (BitVec.ofNat 52 (m - 2 ^ 52)).toNat = m - 2 ^ 52 := by
      rw [BitVec.toNat_ofNat, Nat.mod_eq_of_lt (by omega)]
    generalize BitVec.ofNat 11 (e + 1075).toNat = exponent at hexponent
    generalize BitVec.ofNat 52 (m - 2 ^ 52) = mantissa at hmantissa
    obtain rfl : m = 2 ^ 52 + mantissa.toNat := by omega
    obtain rfl : e = exponent.toNat - 1075 := by omega
    refine ⟨exponent, mantissa, .normal ?_ ?_ h.pos⟩
    · rintro rfl
      change ((2047 : Nat) : Int) - 1075 ≤ 971 at he
      omega
    · rintro rfl
      change -1074 ≤ ((0 : Nat) : Int) - 1075 at hle
      omega
  · obtain rfl : e = -1074 := h.full.resolve_left hfull
    have hmantissa : (BitVec.ofNat 52 m).toNat = m := by
      rw [BitVec.toNat_ofNat, Nat.mod_eq_of_lt (by omega)]
    generalize BitVec.ofNat 52 m = mantissa at hmantissa
    subst hmantissa
    exact ⟨0, mantissa, .subnormal rfl h.pos⟩

/-- The fields of a finite number are found again. -/
theorem Canonical.unpack_pack (h : Canonical m e) (he : e ≤ 971) :
    (Float.Model.pack (.finite s m e h.pos)).unpack = .finite s m e h.pos := by
  obtain ⟨exponent, mantissa, hreads⟩ := exists_reads h he s
  have hunpack := hreads.unpack_packComponents
  rwa [← hreads.pack_eq nofun] at hunpack

end

/-- Where `t` lies between the mantissa and the next: the round bit tells it from the middle on, the
sticky bit off both the mantissa and the middle. -/
structure Locates (em : ExtendedMantissa) (t : ℚ) : Prop where
  le : em.mantissa ≤ t
  lt : t < em.mantissa + 1
  roundBit : em.roundBit = true ↔ em.mantissa + 1 / 2 ≤ t
  stickyBit : em.stickyBit = true ↔ t ≠ em.mantissa ∧ t ≠ em.mantissa + 1 / 2

section

variable {em : ExtendedMantissa} {t : ℚ}

theorem locates_exact (m : Nat) : Locates (.ofMantissaAndAccuracy m .exact) m where
  le := le_rfl
  lt := lt_add_one _
  roundBit := by simp [ExtendedMantissa.ofMantissaAndAccuracy]
  stickyBit := by simp [ExtendedMantissa.ofMantissaAndAccuracy]

theorem locates_inexact (m : Nat) {f : ℚ} (hlow : 0 < f) (hhigh : f < 1) :
    Locates (.ofMantissaAndAccuracy m (.inexact (compare f (1 / 2)))) (m + f) := by
  have hle : (m : ℚ) ≤ m + f := by linarith
  have hlt : (m : ℚ) + f < m + 1 := by linarith
  have hne : (m : ℚ) + f ≠ m := by simpa using hlow.ne'
  obtain h | h | h := lt_trichotomy f (1 / 2)
  · rw [compare_lt_iff_lt.mpr h]
    have hbelow : (m : ℚ) + f < m + 1 / 2 := by linarith
    exact ⟨hle, hlt, iff_of_false Bool.false_ne_true hbelow.not_ge,
      iff_of_true rfl ⟨hne, hbelow.ne⟩⟩
  · rw [compare_eq_iff_eq.mpr h]
    have hmiddle : (m : ℚ) + f = m + 1 / 2 := by linarith
    exact ⟨hle, hlt, iff_of_true rfl hmiddle.ge,
      iff_of_false Bool.false_ne_true fun h => h.2 hmiddle⟩
  · rw [compare_gt_iff_gt.mpr h]
    have habove : (m : ℚ) + 1 / 2 < m + f := by linarith
    exact ⟨hle, hlt, iff_of_true rfl habove.le, iff_of_true rfl ⟨hne, habove.ne'⟩⟩

theorem locates_fraction (num : Nat) {den : Nat} (hden : 0 < den) :
    Locates (.ofMantissaAndAccuracy (num / den) (accuracyOfFraction (num % den) den))
      (num / den) := by
  have hden' : (0 : ℚ) < den := mod_cast hden
  have hnum : (num : ℚ) / den = (num / den : Nat) + (num % den : Nat) / den := by
    have hparts : ((den * (num / den) + num % den : Nat) : ℚ) = num := by
      rw [Nat.div_add_mod]
    push_cast at hparts
    field_simp
    linarith
  have hr : num % den < den := Nat.mod_lt num hden
  rw [hnum]
  generalize num % den = r at hr
  generalize num / den = m
  by_cases hzero : r = 0
  · rw [hzero, Nat.cast_zero, zero_div, add_zero]
    exact locates_exact m
  · have hcompare : compare (2 * r) den = compare ((r : ℚ) / den) (1 / 2) := by
      obtain h | h | h := lt_trichotomy (2 * r) den
      · have h' : (2 * r : ℚ) < den := mod_cast h
        rw [compare_lt_iff_lt.mpr h, eq_comm, compare_lt_iff_lt, div_lt_iff₀ hden']
        linarith
      · have h' : (2 * r : ℚ) = den := mod_cast h
        rw [compare_eq_iff_eq.mpr h, eq_comm, compare_eq_iff_eq, div_eq_iff hden'.ne']
        linarith
      · have h' : (den : ℚ) < 2 * r := mod_cast h
        rw [compare_gt_iff_gt.mpr h, eq_comm, compare_gt_iff_gt, lt_div_iff₀ hden']
        linarith
    have hlow : (0 : ℚ) < r / den := by positivity
    have hhigh : (r : ℚ) / den < 1 := by
      rw [div_lt_one hden']
      exact_mod_cast hr
    rw [accuracyOfFraction, if_neg hzero, hcompare]
    exact locates_inexact m hlow hhigh

theorem Locates.shiftRightOne (h : Locates em t) : Locates em.shiftRightOne (t / 2) := by
  obtain ⟨m, r, s⟩ := em
  obtain ⟨hle, hlt, hround, hsticky⟩ := h
  dsimp only at hle hlt hround hsticky
  have hoff : (r || s) = true ↔ t ≠ m := by
    rw [Bool.or_eq_true, hround, hsticky]
    constructor
    · rintro (hhalf | ⟨hne, -⟩)
      · exact (lt_of_lt_of_le (by linarith) hhalf).ne'
      · exact hne
    · intro hne
      by_cases hhalf : m + 1 / 2 ≤ t
      · exact .inl hhalf
      · exact .inr ⟨hne, fun ht => hhalf ht.ge⟩
  obtain ⟨k, rfl | rfl⟩ := m.even_or_odd'
  · have hhalf : 2 * k / 2 = k := by omega
    push_cast at hle hlt hoff
    refine ⟨?_, ?_, ?_, ?_⟩ <;> simp only [ExtendedMantissa.shiftRightOne, hhalf, hoff]
    · linarith
    · linarith
    · simp
      linarith
    · exact ⟨fun hne => ⟨fun h => hne (by linarith), fun h => by linarith⟩,
        fun h ht => h.1 (by linarith)⟩
  · have hhalf : (2 * k + 1) / 2 = k := by omega
    push_cast at hle hlt hoff
    refine ⟨?_, ?_, ?_, ?_⟩ <;> simp only [ExtendedMantissa.shiftRightOne, hhalf, hoff]
    · linarith
    · linarith
    · simp
      linarith
    · exact ⟨fun hne => ⟨fun h => by linarith, fun h => hne (by linarith)⟩,
        fun h ht => h.2 (by linarith)⟩

theorem Locates.shiftRight (h : Locates em t) (k : Nat) : Locates (em >>> k) (t / 2 ^ k) := by
  change Locates (Nat.repeat ExtendedMantissa.shiftRightOne k em) _
  induction k with
  | zero => simpa [Nat.repeat] using h
  | succ k ih =>
    rw [Nat.repeat, pow_succ, ← div_div]
    exact ih.shiftRightOne

/-- The whole number nearest to `t`; of two equally near ones the even one. -/
structure NearestEven (n : Nat) (t : ℚ) : Prop where
  near : |n - t| ≤ 1 / 2
  tie : |n - t| = 1 / 2 → Even n

theorem Locates.nearestEven (h : Locates em t) : NearestEven em.roundedMantissa t := by
  obtain ⟨m, r, s⟩ := em
  obtain ⟨hle, hlt, hround, hsticky⟩ := h
  dsimp only at hle hlt hround hsticky
  simp only [ExtendedMantissa.roundedMantissa]
  cases r with
  | false =>
    have hbelow : t < m + 1 / 2 := lt_of_not_ge fun h => Bool.false_ne_true (hround.mpr h)
    cases s with
    | false =>
      have ht : t = m := by
        by_contra h
        exact Bool.false_ne_true (hsticky.mpr ⟨h, hbelow.ne⟩)
      rw [ht]
      constructor <;> simp [ExtendedMantissa.accuracy, Accuracy.roundToNearestEven]
    | true =>
      have hrest : |m - t| < 1 / 2 := by
        rw [abs_lt]
        constructor <;> linarith
      exact ⟨hrest.le, fun h => absurd h hrest.ne⟩
  | true =>
    have habove : m + 1 / 2 ≤ t := hround.mp rfl
    cases s with
    | false =>
      have ht : t = m + 1 / 2 := by
        by_contra h
        exact Bool.false_ne_true (hsticky.mpr ⟨(lt_of_lt_of_le (by linarith) habove).ne', h⟩)
      have heven : Even (m + m % 2) := by
        rw [Nat.even_iff]
        omega
      have hrest : |((m + m % 2 : Nat) : ℚ) - t| ≤ 1 / 2 := by
        rw [ht, abs_le]
        obtain h | h := Nat.mod_two_eq_zero_or_one m <;> rw [h] <;> push_cast <;>
          constructor <;> linarith
      exact ⟨hrest, fun _ => heven⟩
    | true =>
      have hne : t ≠ m + 1 / 2 := (hsticky.mp rfl).2
      have hrest : |((m + 1 : Nat) : ℚ) - t| < 1 / 2 := by
        have habove' := lt_of_le_of_ne habove hne.symm
        push_cast
        rw [abs_lt]
        constructor <;> linarith
      exact ⟨hrest.le, fun h => absurd h hrest.ne⟩

namespace NearestEven

variable {n k : Nat}

theorem even_le_iff (h : NearestEven n t) (hk : Even k) : k ≤ n ↔ (k : ℚ) - 1 / 2 ≤ t := by
  obtain ⟨hbelow, habove⟩ := abs_le.mp h.near
  constructor
  · intro hn
    have hn' : (k : ℚ) ≤ n := mod_cast hn
    linarith
  · intro ht
    by_contra hn
    have hn' : (n : ℚ) + 1 ≤ k := mod_cast Nat.lt_of_not_le hn
    have heven : Even n := h.tie (by rw [abs_eq (by norm_num)]; right; linarith)
    have hnext : k = n + 1 := by
      have hnext' : (k : ℚ) = n + 1 := by linarith
      exact_mod_cast hnext'
    rw [hnext] at hk
    exact Nat.not_even_iff_odd.mpr heven.add_one hk

theorem natCast_le (h : NearestEven n t) (ht : (k : ℚ) ≤ t) : k ≤ n := by
  obtain ⟨hbelow, habove⟩ := abs_le.mp h.near
  by_contra hn
  have hn' : (n : ℚ) + 1 ≤ k := mod_cast Nat.lt_of_not_le hn
  linarith

theorem le_natCast (h : NearestEven n t) (ht : t ≤ k) : n ≤ k := by
  obtain ⟨hbelow, habove⟩ := abs_le.mp h.near
  by_contra hn
  have hn' : (k : ℚ) + 1 ≤ n := mod_cast Nat.lt_of_not_le hn
  linarith

theorem le_even_iff (h : NearestEven n t) (hk : Even k) : n ≤ k ↔ t ≤ k + 1 / 2 := by
  obtain ⟨hbelow, habove⟩ := abs_le.mp h.near
  constructor
  · intro hn
    have hn' : (n : ℚ) ≤ k := mod_cast hn
    linarith
  · intro ht
    by_contra hn
    have hn' : (k : ℚ) + 1 ≤ n := mod_cast Nat.lt_of_not_le hn
    have heven : Even n := h.tie (by rw [abs_eq (by norm_num)]; left; linarith)
    have hnext : n = k + 1 := by
      have hnext' : (n : ℚ) = k + 1 := by linarith
      exact_mod_cast hnext'
    rw [hnext] at heven
    exact Nat.not_even_iff_odd.mpr hk.add_one heven

end NearestEven

end

/-- The value at the exponent has 53 bits before the point, or fewer at the least exponent. -/
structure Scaled (t : ℚ) (e : Int) : Prop where
  nonneg : 0 ≤ t
  lt : t < 2 ^ 53
  le : -1074 ≤ e
  full : 2 ^ 52 ≤ t ∨ e = -1074

section

variable {s : Sign} {m : Nat} {e : Int} {accuracy : Accuracy} {t : ℚ}

/-- A value next to the mantissa `m`, shifted to the target exponent. -/
theorem scaled_shift {k : Nat} (hle : (m : ℚ) ≤ t) (hlt : t < m + 1)
    (hk : max ((m.log2 : Int) + 1 + e - 53) (-1074) = e + k) : Scaled (t / 2 ^ k) (e + k) where
  nonneg := by
    have hnonneg : 0 ≤ t := le_trans (Nat.cast_nonneg m) hle
    positivity
  lt := by
    have hbits : m + 1 ≤ 2 ^ (m.log2 + 1) := Nat.lt_log2_self
    have hpow : 2 ^ (m.log2 + 1) ≤ 2 ^ (53 + k) := Nat.pow_le_pow_right two_pos (by omega)
    have hm : (m : ℚ) + 1 ≤ 2 ^ (53 + k) := mod_cast hbits.trans hpow
    rw [div_lt_iff₀ (by positivity), ← pow_add]
    linarith
  le := by omega
  full := by
    by_cases hleast : e + k = -1074
    · exact .inr hleast
    · left
      have hne : m ≠ 0 := by
        rintro rfl
        have hlog : Nat.log2 0 = 0 := Nat.log2_zero
        omega
      have hbits : 2 ^ (52 + k) ≤ m := by
        have hlog : 52 + k = m.log2 := by omega
        rw [hlog]
        exact Nat.log2_self_le hne
      have hm : (2 ^ (52 + k) : ℚ) ≤ m := mod_cast hbits
      rw [le_div_iff₀ (by positivity), ← pow_add]
      linarith

theorem exists_scaled (h : Locates (.ofMantissaAndAccuracy m accuracy) t)
    (hwide : 2 ^ 52 ≤ m ∨ e ≤ -1074) :
    ∃ em e' t', shiftToTargetExponent Format.binary64 m e accuracy = (em, e') ∧ Locates em t' ∧
      t' * 2 ^ e' = t * 2 ^ e ∧ Scaled t' e' := by
  have hmantissa : (ExtendedMantissa.ofMantissaAndAccuracy m accuracy).mantissa = m := by
    obtain _ | (_ | _ | _) := accuracy <;> rfl
  have hle := h.le
  have hlt := h.lt
  rw [hmantissa] at hle hlt
  have htarget : Format.binary64.targetExponent (totalExponent m e) =
      max ((m.log2 : Int) + 1 + e - 53) (-1074) := rfl
  have hlog : 2 ^ 52 ≤ m → 52 ≤ m.log2 := fun hm => (Nat.le_log2 (by omega)).mpr hm
  obtain ⟨k, hk⟩ : ∃ k : Nat, max ((m.log2 : Int) + 1 + e - 53) (-1074) = e + k :=
    ⟨(max ((m.log2 : Int) + 1 + e - 53) (-1074) - e).toNat, by omega⟩
  refine ⟨ExtendedMantissa.ofMantissaAndAccuracy m accuracy >>> k, e + k, t / 2 ^ k, ?_,
    h.shiftRight k, ?_, scaled_shift hle hlt hk⟩
  · have hamount : (e + k - e).toNat = k := by omega
    simp only [shiftToTargetExponent, shiftToExponent, htarget, hk, hamount]
  · rw [zpow_add₀ two_ne_zero, zpow_natCast]
    field_simp

variable {em : ExtendedMantissa} {e' : Int}

theorem roundWithAccuracy_of_zero
    (h : shiftToTargetExponent Format.binary64 m e accuracy = (em, e'))
    (hr : em.roundedMantissa = 0) :
    roundWithAccuracy Format.binary64 s m e accuracy = .zero s := by
  have hshift (k : Nat) : ((⟨0, false, false⟩ : ExtendedMantissa) >>> k).mantissa = 0 := by
    have hzero := shiftRight_mul_two_pow 0 k
    rw [Nat.zero_mul] at hzero
    rw [hzero]
  simp only [roundWithAccuracy, h, hr]
  exact dif_pos (hshift _)

/-- A mantissa that was rounded up to a power of two is shifted once more. -/
theorem Canonical.roundWithAccuracy_of_mul {n k : Nat} (hn : Canonical n (e' + k))
    (h : shiftToTargetExponent Format.binary64 m e accuracy = (em, e'))
    (hr : em.roundedMantissa = n * 2 ^ k) :
    roundWithAccuracy Format.binary64 s m e accuracy = .finite s n (e' + k) hn.pos := by
  have hshift := hn.shiftToTargetExponent_eq k
  rw [Int.add_sub_cancel] at hshift
  simp only [roundWithAccuracy, h, hr, hshift, dif_neg hn.pos.ne']

/-- From here on exact values are rounded to an infinity: half a step above the greatest number. -/
def limit : ℚ := (2 ^ 53 - 1 / 2) * 2 ^ (971 : Int)

/-- The number next to an exact value of magnitude `q`. -/
inductive Rounded (s : Sign) (q : ℚ) : UnpackedFloat → Prop where
  | zero (hq : q ≤ 2 ^ (-1075 : Int)) : Rounded s q (.zero s)
  | finite {m : Nat} {e : Int} (h : Canonical m e) (he : e ≤ 971) (hlow : 2 ^ (-1075 : Int) < q)
      (hhigh : q < limit) (hnear : |m * 2 ^ e - q| ≤ 2 ^ e / 2) :
      Rounded s q (.finite s m e h.pos)
  | infinity (hq : limit ≤ q) : Rounded s q (.infinity s)

theorem two_zpow_pos (e : Int) : (0 : ℚ) < 2 ^ e := zpow_pos two_pos e

theorem two_zpow_le {e e' : Int} (h : e ≤ e') : (2 : ℚ) ^ e ≤ 2 ^ e' :=
  zpow_le_zpow_right₀ one_le_two h

namespace Scaled

theorem limit_le_iff (h : Scaled t e) :
    limit ≤ t * 2 ^ e ↔ 971 < e ∨ e = 971 ∧ 2 ^ 53 - 1 / 2 ≤ t := by
  have hpos := two_zpow_pos e
  have hlimit := two_zpow_pos 971
  obtain he | rfl | he := lt_trichotomy e 971
  · have hstep : (2 : ℚ) ^ e * 2 ≤ 2 ^ (971 : Int) := by
      rw [← zpow_add_one₀ two_ne_zero]
      exact two_zpow_le he
    have hbelow : t * 2 ^ e < limit := by
      have hprod := mul_lt_mul_of_pos_right h.lt hpos
      unfold limit
      generalize (2 : ℚ) ^ e = a, (2 : ℚ) ^ (971 : Int) = b at *
      linarith
    simp only [hbelow.not_ge, false_iff]
    omega
  · simp [limit]
  · have hfull : 2 ^ 52 ≤ t := h.full.resolve_right (by omega)
    have hstep : (2 : ℚ) ^ (971 : Int) * 2 ≤ 2 ^ e := by
      rw [← zpow_add_one₀ two_ne_zero]
      exact two_zpow_le he
    have habove : limit ≤ t * 2 ^ e := by
      have hprod := mul_le_mul_of_nonneg_right hfull hpos.le
      unfold limit
      generalize (2 : ℚ) ^ e = a, (2 : ℚ) ^ (971 : Int) = b at *
      linarith
    simp [habove, he]

theorem least_lt (h : Scaled t e) (ht : 1 / 2 < t) : 2 ^ (-1075 : Int) < t * 2 ^ e := by
  have hleast : (2 : ℚ) ^ (-1075 : Int) * 2 ≤ 2 ^ e := by
    rw [← zpow_add_one₀ two_ne_zero]
    exact two_zpow_le h.le
  have hprod : 1 / 2 * 2 ^ e < t * 2 ^ e := mul_lt_mul_of_pos_right ht (two_zpow_pos e)
  linarith

/-- A mantissa `n` at the exponent `e + k` is what `t` at the exponent `e` is rounded to, with `k`
at most one. -/
theorem rounded_finite {n k : Nat} (h : Scaled t e) (hnear : NearestEven (n * 2 ^ k) t)
    (hn : Canonical n (e + k)) (hk : k = 0 ∨ k = 1 ∧ n = 2 ^ 52) (s : Sign) :
    Rounded s (t * 2 ^ e) (Float.Model.pack (.finite s n (e + k) hn.pos)).unpack := by
  have hpos := two_zpow_pos e
  have hhalf : 1 / 2 < t := by
    have hn' : ¬n * 2 ^ k ≤ 0 := (Nat.mul_pos hn.pos (by positivity)).not_ge
    rw [hnear.le_even_iff Even.zero] at hn'
    push_cast at hn'
    linarith
  have htop : 2 ^ 53 ≤ n * 2 ^ k ↔ (2 : ℚ) ^ 53 - 1 / 2 ≤ t := by
    rw [hnear.even_le_iff (by decide), Nat.cast_pow, Nat.cast_ofNat]
  have hlimit : limit ≤ t * 2 ^ e ↔ 971 < e + k := by
    rw [h.limit_le_iff, ← htop]
    have hlt := hn.lt
    obtain rfl | ⟨rfl, rfl⟩ := hk
    · omega
    · omega
  by_cases he : e + k ≤ 971
  · rw [hn.unpack_pack he]
    refine .finite hn he (h.least_lt hhalf) (lt_of_not_ge ?_) ?_
    · rw [hlimit]
      exact he.not_gt
    · have hdiff : (n : ℚ) * 2 ^ (e + k) - t * 2 ^ e = ((n * 2 ^ k : Nat) - t) * 2 ^ e := by
        rw [zpow_add₀ two_ne_zero, zpow_natCast]
        push_cast
        ring
      have hprod := mul_le_mul_of_nonneg_right hnear.near hpos.le
      have hstep : (2 : ℚ) ^ e ≤ 2 ^ (e + k) := two_zpow_le (by omega)
      rw [hdiff, abs_mul, abs_of_pos hpos]
      linarith
  · rw [unpack_pack_of_lt hn.pos (lt_of_not_ge he)]
    exact .infinity (hlimit.mpr (lt_of_not_ge he))

end Scaled

theorem rounded_roundWithAccuracy (h : Locates (.ofMantissaAndAccuracy m accuracy) t)
    (hwide : 2 ^ 52 ≤ m ∨ e ≤ -1074) (s : Sign) :
    Rounded s (t * 2 ^ e)
      (Float.Model.pack (roundWithAccuracy Format.binary64 s m e accuracy)).unpack := by
  obtain ⟨em, e', t', hshift, hlocates, hvalue, hscaled⟩ := exists_scaled h hwide
  have hnear := hlocates.nearestEven
  rw [← hvalue]
  by_cases hzero : em.roundedMantissa = 0
  · have hhalf : t' ≤ 1 / 2 := by
      have hle := (hnear.le_even_iff Even.zero).mp hzero.le
      rwa [Nat.cast_zero, Rat.zero_add] at hle
    have hleast : e' = -1074 := hscaled.full.resolve_left (by linarith)
    rw [roundWithAccuracy_of_zero hshift hzero, unpack_pack_zero, hleast]
    have hstep : (2 : ℚ) ^ (-1074 : Int) = 2 ^ (-1075 : Int) * 2 :=
      zpow_add_one₀ two_ne_zero (-1075)
    have hprod := mul_le_mul_of_nonneg_right hhalf (two_zpow_pos (-1074)).le
    refine .zero ?_
    linarith
  have hfull : 2 ^ 52 ≤ em.roundedMantissa ∨ e' = -1074 :=
    hscaled.full.imp_left fun ht => hnear.natCast_le (by push_cast; exact ht)
  have hle : em.roundedMantissa ≤ 2 ^ 53 := hnear.le_natCast (by push_cast; exact hscaled.lt.le)
  by_cases hcarry : em.roundedMantissa = 2 ^ 53
  · have hn : Canonical (2 ^ 52) (e' + (1 : Nat)) :=
      ⟨by norm_num, by norm_num, by have := hscaled.le; omega, .inl le_rfl⟩
    have hmul : em.roundedMantissa = 2 ^ 52 * 2 ^ 1 := by rw [hcarry]; norm_num
    rw [hn.roundWithAccuracy_of_mul hshift hmul]
    exact hscaled.rounded_finite (hmul ▸ hnear) hn (.inr ⟨rfl, rfl⟩) s
  · have hn : Canonical em.roundedMantissa (e' + (0 : Nat)) :=
      ⟨by omega, by omega, by have := hscaled.le; omega, by simpa using hfull⟩
    have hmul : em.roundedMantissa = em.roundedMantissa * 2 ^ 0 := by rw [pow_zero, Nat.mul_one]
    rw [hn.roundWithAccuracy_of_mul hshift hmul]
    exact hscaled.rounded_finite (hmul ▸ hnear) hn (.inl rfl) s

end

end DenseLinear.Binary64
