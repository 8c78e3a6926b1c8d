import DenseLinear.Proofs.ShortestDigits

/-!
# Numbers written in full

The text of a decimal reads back as its value: zeros are added or moved across the point, and the
exponent counts them. A decimal rounds to one number only, so the shortest digits of a number tell
it from all others; and the bits of a number are known from its sign and its magnitude. So numbers
written in full are told apart by their texts, which have neither blanks nor line ends.
-/

namespace DenseLinear

open Binary64 (Canonical)

/-- The value of digits with a point among them. -/
def readPlain (text : List Char) : ℚ :=
  let whole := text.takeWhile (· ≠ '.')
  let decimals := (text.dropWhile (· ≠ '.')).tail
  Nat.ofDigitChars 10 (whole ++ decimals) 0 / 10 ^ decimals.length

theorem readPlain_joinPoint {whole decimals : List Char} (h : '.' ∉ whole) :
    readPlain (joinPoint (whole, decimals)) =
      Nat.ofDigitChars 10 (whole ++ decimals) 0 / 10 ^ decimals.length := by
  have hall : ∀ c ∈ whole, decide (c ≠ '.') = true := by
    intro c hc
    exact decide_eq_true fun hpoint => h (hpoint ▸ hc)
  cases decimals with
  | nil =>
    simp only [readPlain, joinPoint, List.takeWhile_eq_self_iff.mpr hall,
      List.dropWhile_eq_nil_iff.mpr hall, List.tail_nil]
  | cons c cs =>
    simp only [readPlain, joinPoint, List.takeWhile_append_of_pos hall,
      List.dropWhile_append_of_pos hall]
    simp

theorem readPlain_splitDigits {digits : List Char} (h : '.' ∉ digits) (n : Nat) :
    readPlain (joinPoint (splitDigits digits n)) = Nat.ofDigitChars 10 digits 0 / 10 ^ n := by
  unfold splitDigits
  rw [List.splitAt_eq]
  generalize hzeros : List.replicate (n + 1 - digits.length) '0' = zeros
  have hlength : n ≤ (zeros ++ digits).length := by
    rw [← hzeros, List.length_append, List.length_replicate]
    omega
  have hpoint : '.' ∉ zeros ++ digits := by
    rw [← hzeros, List.mem_append]
    simp [h]
  have hvalue : Nat.ofDigitChars 10 (zeros ++ digits) 0 = Nat.ofDigitChars 10 digits 0 := by
    rw [← hzeros, Nat.ofDigitChars_append, Nat.ofDigitChars_replicate_zero, Nat.mul_zero]
  rw [readPlain_joinPoint fun hmem => hpoint (List.mem_of_mem_take hmem), List.take_append_drop,
    hvalue, List.length_drop, Nat.sub_sub_self hlength]

namespace Decimal

theorem readPlain_plain (d : Decimal) : readPlain d.plain = d.digits * 10 ^ d.exponent := by
  obtain ⟨n, hdigits, hexponent⟩ := d.exists_trimmed
  have hpoint : '.' ∉ d.trimmed.1 := by
    intro hmem
    have hdigit := (d.mem_trimmed (by decide)).mp hmem
    exact absurd (Nat.isDigit_of_mem_toDigits (by norm_num) (by norm_num) hdigit) (by decide)
  have hvalue : d.digits = 10 ^ n * Nat.ofDigitChars 10 d.trimmed.1 0 := by
    rw [← Nat.ofDigitChars_replicate_zero, ← Nat.ofDigitChars_append, hdigits,
      Nat.ofDigitChars_ten_toDigits]
  have hten : (10 : ℚ) ^ (-d.trimmed.2).toNat ≠ 0 := by positivity
  have hpadded : '.' ∉ d.trimmed.1 ++ List.replicate d.trimmed.2.toNat '0' := by
    rw [List.mem_append]
    simp [hpoint]
  calc readPlain d.plain
      = Nat.ofDigitChars 10 (d.trimmed.1 ++ List.replicate d.trimmed.2.toNat '0') 0 /
          10 ^ (-d.trimmed.2).toNat := readPlain_splitDigits hpadded _
    _ = 10 ^ d.trimmed.2.toNat * Nat.ofDigitChars 10 d.trimmed.1 0 /
          10 ^ (-d.trimmed.2).toNat := by
      rw [Nat.ofDigitChars_append, Nat.ofDigitChars_replicate_zero]
      push_cast
      rfl
    _ = 10 ^ (d.exponent + n) * Nat.ofDigitChars 10 d.trimmed.1 0 := by
      rw [Binary.pow_toNat (by norm_num), mul_right_comm, mul_div_cancel_right₀ _ hten, hexponent]
    _ = d.digits * 10 ^ d.exponent := by
      rw [hvalue, zpow_add₀ (by norm_num), zpow_natCast]
      push_cast
      ring

end Decimal

namespace FloatValue

open Float.Model Float.Model.UnpackedFloat

/-- The bits of a value other than `nan`. -/
def toBits : FloatValue → Nat
  | nan => 0
  | infinite negative => negative.toNat * 2 ^ 63 + 2047 * 2 ^ 52
  | finite negative v =>
    if v.mantissa < 2 ^ 52 then negative.toNat * 2 ^ 63 + v.mantissa
    else negative.toNat * 2 ^ 63 + (v.exponent + 1075).toNat * 2 ^ 52 + (v.mantissa - 2 ^ 52)

theorem toBits_ofBits {bits : Nat} (hbits : bits < 2 ^ 64) (h : ofBits bits ≠ nan) :
    (ofBits bits).toBits = bits := by
  have hsign : (bits >>> 63 == 1).toNat = bits / 2 ^ 63 := by
    rw [Nat.shiftRight_eq_div_pow]
    have hle : bits / 2 ^ 63 ≤ 1 := by omega
    generalize bits / 2 ^ 63 = sign at hle
    interval_cases sign <;> rfl
  have hexponent : bits >>> 52 = bits / 2 ^ 52 := Nat.shiftRight_eq_div_pow _ _
  unfold ofBits at h ⊢
  dsimp only at h ⊢
  rw [hexponent] at h ⊢
  split_ifs at h ⊢ with hmost hfraction hleast
  · simp only [toBits, hsign]
    omega
  · exact absurd rfl h
  · simp only [toBits, hsign]
    rw [if_pos (by omega)]
    omega
  · simp only [toBits, hsign]
    rw [if_neg (by omega)]
    omega

/-- The magnitude of a number has all bits that its exponent leaves room for, and zero has the
least exponent. -/
theorem canonical_or_zero {bits : Nat} {negative : Bool} {v : Binary}
    (h : ofBits bits = finite negative v) :
    Canonical v.mantissa v.exponent ∨ v = ⟨0, -1074⟩ := by
  unfold ofBits at h
  dsimp only at h
  split_ifs at h with hmost hfraction hleast
  · obtain ⟨-, rfl⟩ := finite.inj h
    rcases Nat.eq_zero_or_pos (bits % 0x10000000000000) with hzero | hpos
    · exact .inr (by rw [hzero])
    · exact .inl ⟨hpos, Nat.lt_trans (Nat.mod_lt _ (by norm_num)) (by norm_num), le_rfl, .inr rfl⟩
  · obtain ⟨-, rfl⟩ := finite.inj h
    refine .inl ⟨?_, ?_, ?_, .inl ?_⟩
    all_goals
      dsimp only
      omega

theorem isNaN_of_ofFloat {x : Float} (h : ofFloat x = nan) : x.isNaN = true := by
  have hbits : ofBits (x.toModel.toBits.toBitVec : BitVec Format.binary64.numBits).toNat = nan := h
  have hreads := Binary64.reads_unpack x.toModel.toBits.toBitVec
  change x.toModel.unpack.isNaN = true
  change Binary64.Reads _ _ _ x.toModel.unpack at hreads
  generalize (x.toModel.toBits.toBitVec : BitVec Format.binary64.numBits) = b at hbits hreads
  unfold ofBits at hbits
  dsimp only at hbits
  split_ifs at hbits with hmost hfraction
  have hexponent : (@unpackExponent Format.binary64 b).toNat = 2047 := by
    rw [unpackExponent, BitVec.toNat_cast, BitVec.extractLsb_toNat]
    exact hmost
  have hmantissa : (@unpackMantissa Format.binary64 b).toNat ≠ 0 := by
    rw [unpackMantissa, BitVec.toNat_cast, BitVec.extractLsb_toNat]
    exact hfraction
  generalize x.toModel.unpack = u at hreads ⊢
  cases hreads with
  | infinity he hm => exact absurd (congrArg BitVec.toNat hm) hmantissa
  | notANumber => rfl
  | zero he => exact absurd (congrArg BitVec.toNat he) (by rw [hexponent]; decide)
  | subnormal he => exact absurd (congrArg BitVec.toNat he) (by rw [hexponent]; decide)
  | normal he => exact absurd (BitVec.eq_of_toNat_eq hexponent) he

theorem ofFloat_ne_nan {x : Float} (hx : x.isNaN = false) : ofFloat x ≠ nan := by
  intro hnan
  rw [isNaN_of_ofFloat hnan] at hx
  cases hx

theorem ofFloat_inj {x y : Float} (hx : x.isNaN = false) (h : ofFloat x = ofFloat y) : x = y := by
  have hnan := ofFloat_ne_nan hx
  have hbits := congrArg FloatValue.toBits h
  rw [ofFloat, ofFloat, toBits_ofBits x.toBits.toNat_lt hnan,
    toBits_ofBits y.toBits.toNat_lt fun hy => hnan (h.trans hy)] at hbits
  exact eq_of_toBits_eq hbits

def signChars (negative : Bool) : List Char := if negative then ['-'] else []

variable {magnitude : Binary → List Char}

theorem toList_text_infinite (negative : Bool) :
    ((infinite negative).text magnitude).toList = signChars negative ++ ['i', 'n', 'f'] := by
  cases negative <;> simp [text, text.sign, signChars]

theorem toList_text_finite (negative : Bool) (v : Binary) :
    ((finite negative v).text magnitude).toList = signChars negative ++ magnitude v := by
  cases negative <;> simp [text, text.sign, signChars]

theorem signChars_append_inj {s t : Bool} {a b : List Char} (ha : '-' ∉ a) (hb : '-' ∉ b)
    (h : signChars s ++ a = signChars t ++ b) : s = t ∧ a = b := by
  cases s <;> cases t
  · exact ⟨rfl, h⟩
  · have ha' : a = '-' :: b := h
    exact absurd (ha' ▸ List.mem_cons_self) ha
  · have hb' : '-' :: a = b := h
    exact absurd (hb' ▸ List.mem_cons_self) hb
  · exact ⟨rfl, List.cons_injective h⟩

/-- The same sign, and magnitudes written alike. -/
inductive WrittenAlike (magnitude : Binary → List Char) : FloatValue → FloatValue → Prop where
  | infinite (negative : Bool) : WrittenAlike magnitude (.infinite negative) (.infinite negative)
  | finite (negative : Bool) {v w : Binary} (h : magnitude v = magnitude w) :
      WrittenAlike magnitude (.finite negative v) (.finite negative w)

theorem writtenAlike_of_text_eq (hdigits : ∀ v, ∀ c ∈ magnitude v, c ≠ '.' → c.isDigit = true)
    {u w : FloatValue} (hu : u ≠ nan) (hw : w ≠ nan) (h : u.text magnitude = w.text magnitude) :
    WrittenAlike magnitude u w := by
  have hminus (v : Binary) : '-' ∉ magnitude v :=
    fun hc => absurd (hdigits v '-' hc (by decide)) (by decide)
  have hletter (v : Binary) : magnitude v ≠ ['i', 'n', 'f'] := by
    intro hv
    exact absurd (hdigits v 'i' (hv ▸ List.mem_cons_self) (by decide)) (by decide)
  have hlist := congrArg String.toList h
  cases u with
  | nan => exact absurd rfl hu
  | infinite s =>
    cases w with
    | nan => exact absurd rfl hw
    | infinite t =>
      rw [toList_text_infinite, toList_text_infinite] at hlist
      obtain ⟨rfl, -⟩ := signChars_append_inj (by decide) (by decide) hlist
      exact .infinite s
    | finite t b =>
      rw [toList_text_infinite, toList_text_finite] at hlist
      exact absurd (signChars_append_inj (by decide) (hminus b) hlist).2.symm (hletter b)
  | finite s a =>
    cases w with
    | nan => exact absurd rfl hw
    | infinite t =>
      rw [toList_text_finite, toList_text_infinite] at hlist
      exact absurd (signChars_append_inj (hminus a) (by decide) hlist).2 (hletter a)
    | finite t b =>
      rw [toList_text_finite, toList_text_finite] at hlist
      obtain ⟨rfl, hmagnitude⟩ := signChars_append_inj (hminus a) (hminus b) hlist
      exact .finite s hmagnitude

end FloatValue

namespace Binary

def plain (v : Binary) : List Char := if v.mantissa = 0 then ['0'] else v.shortest.plain

theorem isDigit_of_mem_plain {v : Binary} {c : Char} (h : c ∈ v.plain) (hc : c ≠ '.') :
    c.isDigit = true := by
  unfold plain at h
  split_ifs at h
  · rw [List.mem_singleton.mp h]
    rfl
  · exact Decimal.isDigit_of_mem_plain h hc

theorem plain_inj {v w : Binary} (hv : Canonical v.mantissa v.exponent ∨ v = ⟨0, -1074⟩)
    (hw : Canonical w.mantissa w.exponent ∨ w = ⟨0, -1074⟩) (h : v.plain = w.plain) : v = w := by
  have hplain {u : Binary} (hu : Canonical u.mantissa u.exponent) :
      u.plain = u.shortest.plain := if_neg hu.pos.ne'
  have hzero {u : Binary} (hu : Canonical u.mantissa u.exponent) : u.plain ≠ ['0'] := by
    rw [hplain hu]
    exact Decimal.plain_ne_zero (shortest_digits_ne_zero hu.pos.ne')
  rcases hv with hv | rfl
  · rcases hw with hw | rfl
    · have hvalue := congrArg readPlain h
      rw [hplain hv, hplain hw, Decimal.readPlain_plain, Decimal.readPlain_plain] at hvalue
      exact eq_of_covers hv hw (covers_shortest hv) (hvalue ▸ covers_shortest hw)
    · exact absurd h (hzero hv)
  · rcases hw with hw | rfl
    · exact absurd h.symm (hzero hw)
    · rfl

end Binary

/-- Numbers written in full are told apart by their texts. -/
theorem plainText_inj {x y : Float} (hx : x.isNaN = false) (hy : y.isNaN = false)
    (h : plainText x = plainText y) : x = y := by
  have halike : FloatValue.WrittenAlike Binary.plain (.ofFloat x) (.ofFloat y) :=
    FloatValue.writtenAlike_of_text_eq (fun _ _ => Binary.isDigit_of_mem_plain)
      (FloatValue.ofFloat_ne_nan hx) (FloatValue.ofFloat_ne_nan hy) h
  apply FloatValue.ofFloat_inj hx
  generalize hu : FloatValue.ofFloat x = u at halike
  generalize hw : FloatValue.ofFloat y = w at halike
  cases halike with
  | infinite s => rfl
  | finite s hplain =>
    rw [Binary.plain_inj (FloatValue.canonical_or_zero hu) (FloatValue.canonical_or_zero hw) hplain]

def plainMarks : List Char := ['.', '-', 'i', 'n', 'f', 'N', 'a']

theorem mem_plainText {x : Float} {c : Char} (h : c ∈ (plainText x).toList) :
    c.isDigit = true ∨ c ∈ plainMarks := by
  have hsign : ∀ negative, ∀ c ∈ FloatValue.signChars negative, c ∈ plainMarks := by
    simp [FloatValue.signChars, plainMarks]
  have hinf : ∀ c ∈ ['i', 'n', 'f'], c ∈ plainMarks := by simp [plainMarks]
  have hnan : ∀ c ∈ ['N', 'a', 'N'], c ∈ plainMarks := by simp [plainMarks]
  change c ∈ ((FloatValue.ofFloat x).text Binary.plain).toList at h
  cases hv : FloatValue.ofFloat x with
  | nan =>
    rw [hv] at h
    exact .inr (hnan c h)
  | infinite s =>
    rw [hv, FloatValue.toList_text_infinite, List.mem_append] at h
    exact .inr (h.elim (hsign s c) (hinf c))
  | finite s v =>
    rw [hv, FloatValue.toList_text_finite, List.mem_append] at h
    rcases h with hc | hc
    · exact .inr (hsign s c hc)
    · by_cases hpoint : c = '.'
      · exact .inr (hpoint ▸ List.mem_cons_self)
      · exact .inl (Binary.isDigit_of_mem_plain hc hpoint)

/-- Numbers written in full have neither blanks nor line ends. -/
theorem notMem_plainText {c : Char} (h : c = ' ' ∨ c = '\n') (x : Float) :
    c ∉ (plainText x).toList := by
  intro hc
  have hmarks : ¬(c.isDigit = true ∨ c ∈ plainMarks) := by
    rcases h with rfl | rfl <;> decide
  exact hmarks (mem_plainText hc)

end DenseLinear
