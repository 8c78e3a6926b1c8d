import DenseLinear.Proofs.MachineRounding

/-!
# Values of numbers

A finite number is a sign and a rational magnitude. Products and quotients of numbers are rounded
from the product or quotient of their magnitudes. Sums and differences whose exact magnitude has no
more bits than a number has room for are exact.
-/

namespace DenseLinear.Binary64

open Float.Model Float.Model.UnpackedFloat

section

variable {m n : Nat} {e f : Int} (hm : Canonical m e) (hn : Canonical n f) (s s' : Sign)

include hm hn

theorem rounded_mul : Rounded (s * s') (m * 2 ^ e * (n * 2 ^ f))
    (Float.Model.pack (UnpackedFloat.mul Format.binary64 (.finite s m e hm.pos)
      (.finite s' n f hn.pos))).unpack := by
  have hwide : 2 ^ 52 ≤ m * n ∨ e + f ≤ -1074 := by
    obtain hfull | rfl := hm.full
    · exact .inl (hfull.trans (Nat.le_mul_of_pos_right m hn.pos))
    · obtain hfull | rfl := hn.full
      · exact .inl (hfull.trans (Nat.le_mul_of_pos_left n hm.pos))
      · exact .inr (by decide)
  have hvalue : (m : ℚ) * 2 ^ e * (n * 2 ^ f) = (m * n : Nat) * 2 ^ (e + f) := by
    rw [zpow_add₀ two_ne_zero]
    push_cast
    ring
  rw [hvalue]
  exact rounded_roundWithAccuracy (locates_exact (m * n)) hwide (s * s')

theorem exists_divCore : ∃ (k : Nat) (t : Int), t + k = e - f ∧
    (2 ^ 52 ≤ m * 2 ^ k / n ∨ t ≤ -1074) ∧
      divCore Format.binary64 m e n f =
        (m * 2 ^ k / n, t, accuracyOfFraction (m * 2 ^ k % n) n) := by
  have hlog : m.log2 < 53 := (Nat.log2_lt hm.pos.ne').mpr hm.lt
  have htarget : Format.binary64.targetExponent (totalExponent m e - totalExponent n f) =
      max ((m.log2 : Int) + 1 + e - (n.log2 + 1 + f) - 53) (-1074) := rfl
  generalize ht : min (e - f) (max ((m.log2 : Int) + 1 + e - (n.log2 + 1 + f) - 53) (-1074)) = t
  obtain ⟨k, hk⟩ : ∃ k : Nat, t + k = e - f := ⟨(e - f - t).toNat, by omega⟩
  refine ⟨k, t, hk, ?_, ?_⟩
  · by_cases hleast : t ≤ -1074
    · exact .inr hleast
    · left
      have hbits : m.log2 + k = n.log2 + 1 + 52 := by omega
      have hm' : 2 ^ m.log2 ≤ m := Nat.log2_self_le hm.pos.ne'
      have hn' : n < 2 ^ (n.log2 + 1) := Nat.lt_log2_self
      rw [Nat.le_div_iff_mul_le hn.pos]
      calc
        2 ^ 52 * n ≤ 2 ^ (n.log2 + 1) * 2 ^ 52 := by
          rw [Nat.mul_comm]
          exact Nat.mul_le_mul_right _ hn'.le
        _ = 2 ^ m.log2 * 2 ^ k := by rw [← pow_add, ← pow_add, hbits]
        _ ≤ m * 2 ^ k := Nat.mul_le_mul_right _ hm'
  · have hamount : (e - f - t).toNat = k := by omega
    simp only [divCore, htarget, ht, hamount, Nat.shiftLeft_eq]

theorem rounded_div : Rounded (s / s') (m * 2 ^ e / (n * 2 ^ f))
    (Float.Model.pack (UnpackedFloat.div Format.binary64 (.finite s m e hm.pos)
      (.finite s' n f hn.pos))).unpack := by
  obtain ⟨k, t, hk, hwide, hcore⟩ := exists_divCore hm hn
  have hvalue : (m : ℚ) * 2 ^ e / (n * 2 ^ f) = (m * 2 ^ k : Nat) / n * 2 ^ t := by
    have he : e = t + k + f := by omega
    have hn' := hn.pos
    rw [he, zpow_add₀ two_ne_zero, zpow_add₀ two_ne_zero, zpow_natCast]
    push_cast
    field_simp
  have hdiv : UnpackedFloat.div Format.binary64 (.finite s m e hm.pos) (.finite s' n f hn.pos) =
      roundWithAccuracy Format.binary64 (s / s') (m * 2 ^ k / n) t
        (accuracyOfFraction (m * 2 ^ k % n) n) := by
    simp only [UnpackedFloat.div, hcore]
  rw [hvalue, hdiv]
  exact rounded_roundWithAccuracy (locates_fraction (m * 2 ^ k) hn.pos) hwide (s / s')

end

/-- A finite number with the sign `s` and the magnitude `q`. -/
inductive HasValue (s : Sign) (q : ℚ) : UnpackedFloat → Prop where
  | zero (hq : q = 0) : HasValue s q (.zero s)
  | finite {m : Nat} {e : Int} (h : Canonical m e) (he : e ≤ 971) (hq : m * 2 ^ e = q) :
      HasValue s q (.finite s m e h.pos)

section

variable {s : Sign} {q r : ℚ} {u : UnpackedFloat}

namespace HasValue

theorem nonneg (h : HasValue s q u) : 0 ≤ q := by
  cases h with
  | zero hq => exact hq.ge
  | finite h he hq =>
    rw [← hq]
    have hpos := two_zpow_pos
    positivity

theorem unpack_pack (h : HasValue s q u) : (Float.Model.pack u).unpack = u := by
  cases h with
  | zero hq => exact unpack_pack_zero s
  | finite h he hq => exact h.unpack_pack he

theorem pack (h : HasValue s q u) : HasValue s q (Float.Model.pack u).unpack := by
  rwa [h.unpack_pack]

theorem eq_zero (h : HasValue s 0 u) : u = .zero s := by
  cases h with
  | zero hq => rfl
  | finite h he hq => exact absurd hq (mul_pos (Nat.cast_pos.mpr h.pos) (two_zpow_pos _)).ne'

theorem abs (h : HasValue s q u) : HasValue .positive q u.abs := by
  cases h with
  | zero hq => exact .zero hq
  | finite h he hq => exact .finite h he hq

theorem neg (h : HasValue s q u) : HasValue (-s) q u.neg := by
  cases h with
  | zero hq => exact .zero hq
  | finite h he hq => exact .finite h he hq

end HasValue

theorem one_lt_limit : 1 < limit := by
  have hpow : (1 : ℚ) ≤ 2 ^ (971 : Int) := one_le_zpow₀ one_le_two (by norm_num)
  unfold limit
  generalize (2 : ℚ) ^ (971 : Int) = a at *
  linarith

theorem HasValue.lt_limit (h : HasValue s q u) : q < limit := by
  cases h with
  | zero hq => exact hq ▸ zero_lt_one.trans one_lt_limit
  | @finite m e hm he hq =>
    have hlt : (m : ℚ) + 1 ≤ 2 ^ 53 := mod_cast hm.lt
    have hprod := mul_le_mul (le_sub_iff_add_le.mpr hlt) (two_zpow_le he) (two_zpow_pos e).le
      (by norm_num)
    have hpos := two_zpow_pos 971
    rw [← hq]
    unfold limit
    generalize (2 : ℚ) ^ (971 : Int) = a at *
    linarith

/-- What is at least one does not vanish when it is divided by a number. -/
theorem least_lt_div (hq : 1 ≤ q) (hr : 0 < r) (hlimit : r < limit) :
    2 ^ (-1075 : Int) < q / r := by
  have htop : limit < 2 ^ (1075 : Int) := by
    have hpow : (2 : ℚ) ^ (971 : Int) * 2 ^ (53 : Int) ≤ 2 ^ (1075 : Int) := by
      rw [← zpow_add₀ two_ne_zero]
      exact two_zpow_le (by norm_num)
    have hpos := two_zpow_pos 971
    unfold limit
    generalize (2 : ℚ) ^ (971 : Int) = a, (2 : ℚ) ^ (1075 : Int) = b at *
    norm_num at hpow
    linarith
  rw [zpow_neg, lt_div_iff₀ hr, inv_mul_lt_iff₀ (two_zpow_pos 1075)]
  exact (hlimit.trans htop).trans_le (le_mul_of_one_le_right (two_zpow_pos 1075).le hq)

theorem least_lt_limit : 2 ^ (-1075 : Int) < limit := by
  have hleast : (2 : ℚ) ^ (-1075 : Int) ≤ 2 ^ (0 : Int) := two_zpow_le (by norm_num)
  rw [zpow_zero] at hleast
  exact hleast.trans_lt one_lt_limit

namespace Rounded

theorem eq_zero (h : Rounded s q u) (hq : q ≤ 2 ^ (-1075 : Int)) : u = .zero s := by
  cases h with
  | zero hzero => rfl
  | finite hm he hlow hhigh hnear => exact absurd hq hlow.not_ge
  | infinity hlimit => exact absurd (hlimit.trans hq) least_lt_limit.not_ge

theorem eq_infinity (h : Rounded s q u) (hq : limit ≤ q) : u = .infinity s := by
  cases h with
  | zero hzero => exact absurd (hq.trans hzero) least_lt_limit.not_ge
  | finite hm he hlow hhigh hnear => exact absurd hq hhigh.not_ge
  | infinity hlimit => rfl

theorem exists_value (h : Rounded s q u) (hq : q < limit) : ∃ r, HasValue s r u := by
  cases h with
  | zero hzero => exact ⟨0, .zero rfl⟩
  | finite hm he hlow hhigh hnear => exact ⟨_, .finite hm he rfl⟩
  | infinity hlimit => exact absurd hlimit hq.not_ge

theorem exists_pos_value (h : Rounded s q u) (hleast : 2 ^ (-1075 : Int) < q) (hq : q < limit) :
    ∃ r, HasValue s r u ∧ 0 < r := by
  cases h with
  | zero hzero => exact absurd hzero hleast.not_ge
  | finite hm he hlow hhigh hnear =>
    exact ⟨_, .finite hm he rfl, mul_pos (Nat.cast_pos.mpr hm.pos) (two_zpow_pos _)⟩
  | infinity hlimit => exact absurd hlimit hq.not_ge

theorem ne_zero (h : Rounded s q u) (hleast : 2 ^ (-1075 : Int) < q) (s' : Sign) :
    u ≠ .zero s' := by
  rintro rfl
  cases h with
  | zero hzero => exact hzero.not_gt hleast

end Rounded

end

section

variable {x y : Float} {s s' : Sign} {q r : ℚ} (hx : HasValue s q x.toModel.unpack)
  (hy : HasValue s' r y.toModel.unpack)

include hx hy

theorem HasValue.mul : Rounded (s * s') (q * r) (x * y).toModel.unpack := by
  have hzero : Rounded (s * s') 0 (Float.Model.pack (.zero (s * s'))).unpack := by
    rw [unpack_pack_zero]
    exact .zero (two_zpow_pos (-1075)).le
  rw [toModel_mul]
  generalize x.toModel.unpack = u, y.toModel.unpack = v at hx hy
  cases hx with
  | zero hq =>
    rw [hq, zero_mul]
    cases hy with
    | zero hr => exact hzero
    | finite hn hf hr => exact hzero
  | finite hm he hq =>
    cases hy with
    | zero hr =>
      rw [hr, mul_zero]
      exact hzero
    | finite hn hf hr =>
      rw [← hq, ← hr]
      exact rounded_mul hm hn s s'

theorem HasValue.div (hr : r ≠ 0) : Rounded (s / s') (q / r) (x / y).toModel.unpack := by
  rw [toModel_div]
  generalize x.toModel.unpack = u, y.toModel.unpack = v at hx hy
  cases hy with
  | zero hzero => exact absurd hzero hr
  | finite hn hf hvalue =>
    cases hx with
    | zero hq =>
      rw [hq, zero_div]
      change Rounded _ _ (Float.Model.pack (.zero (s / s'))).unpack
      rw [unpack_pack_zero]
      exact .zero (two_zpow_pos (-1075)).le
    | finite hm he hq =>
      rw [← hq, ← hvalue]
      exact rounded_div hm hn s s'

end

theorem div_positive (s : Sign) : s / .positive = s := by
  cases s <;> rfl

theorem hasValue_one : HasValue .positive 1 (1 : Float).toModel.unpack :=
  .finite (m := 2 ^ 52) (e := -52) ⟨by norm_num, by norm_num, by norm_num, .inl le_rfl⟩
    (by norm_num) (by norm_num)

/-- The rational number that a finite number stands for, without its sign. -/
def magnitude (x : Float) : ℚ :=
  match x.toModel.unpack with
  | .finite _ m e _ => m * 2 ^ e
  | _ => 0

section

variable {x : Float} {s : Sign} {q : ℚ}

theorem HasValue.magnitude_eq (h : HasValue s q x.toModel.unpack) : magnitude x = q := by
  unfold magnitude
  generalize x.toModel.unpack = u at h
  cases h with
  | zero hq => exact hq.symm
  | finite hm he hq => exact hq

theorem exponent_le {m : Nat} {e : Int} {hm : 0 < m} (h : x.toModel.unpack = .finite s m e hm) :
    e ≤ 971 := by
  have hreads := reads_unpack x.toBits.toBitVec
  change Reads _ _ _ x.toModel.unpack at hreads
  rw [h] at hreads
  exact hreads.exponent_le

theorem exists_hasValue (hx : x.isFinite = true) :
    ∃ s, HasValue s (magnitude x) x.toModel.unpack := by
  by_cases hzero : IsZero x
  · obtain ⟨s, h⟩ := isZero_iff.mp hzero
    have hvalue : HasValue s 0 x.toModel.unpack := h ▸ .zero rfl
    exact ⟨s, by rwa [hvalue.magnitude_eq]⟩
  · obtain ⟨s, m, e, hm, h⟩ := exists_finite hx hzero
    have hvalue : HasValue s (m * 2 ^ e) x.toModel.unpack :=
      h ▸ .finite (canonical_of_unpack h) (exponent_le h) rfl
    exact ⟨s, by rwa [hvalue.magnitude_eq]⟩

theorem magnitude_lt_limit (x : Float) : magnitude x < limit := by
  by_cases hx : x.isFinite = true
  · obtain ⟨s, h⟩ := exists_hasValue hx
    exact h.lt_limit
  · have hzero : magnitude x = 0 := by
      change ¬x.toModel.unpack.isFinite = true at hx
      unfold magnitude
      generalize x.toModel.unpack = u at hx
      cases u <;> first | rfl | exact absurd rfl hx
    rw [hzero]
    exact zero_lt_one.trans one_lt_limit

end

section

variable {x y : Float} {s : Sign} {q : ℚ} {u : UnpackedFloat}

theorem Canonical.lt_two_zpow_iff {m : Nat} {e f : Int} (h : Canonical m e) (hf : -1074 < f) :
    (m : ℚ) * 2 ^ e < 2 ^ (52 + f) ↔ e < f := by
  rw [zpow_add₀ two_ne_zero]
  constructor
  · intro hlt
    by_contra hfe
    have hfull : 2 ^ 52 ≤ m := h.full.resolve_right (by omega)
    have hm : (2 : ℚ) ^ (52 : Int) ≤ m := mod_cast hfull
    have hprod := mul_le_mul hm (two_zpow_le (Int.not_lt.mp hfe)) (two_zpow_pos f).le
      (Nat.cast_nonneg m)
    linarith
  · intro hef
    have hm : (m : ℚ) < 2 ^ 53 := mod_cast h.lt
    have hstep : (2 : ℚ) ^ e * 2 ≤ 2 ^ f := by
      rw [← zpow_add_one₀ two_ne_zero]
      exact two_zpow_le hef
    have hprod := mul_lt_mul_of_pos_right hm (two_zpow_pos e)
    norm_num
    linarith

theorem HasValue.lt_iff {f : Int} (h : HasValue .positive q u) (hf : -1074 < f) :
    UnpackedFloat.lt u (.finite .positive (2 ^ 52) f (by norm_num)) = true ↔ q < 2 ^ (52 + f) := by
  cases h with
  | zero hq =>
    rw [hq]
    exact iff_of_true rfl (two_zpow_pos _)
  | @finite m e hm he hq =>
    rw [← hq, hm.lt_two_zpow_iff hf]
    have hfull := hm.full
    simp only [UnpackedFloat.lt, UnpackedFloat.compare, beq_iff_eq, Option.some.injEq]
    rw [Ordering.then_eq_lt, compare_lt_iff_lt, compare_eq_iff_eq, compare_lt_iff_lt]
    omega

theorem lt_iff_unpack : x < y ↔ UnpackedFloat.lt x.toModel.unpack y.toModel.unpack = true := by
  change decide (x.toModel < y.toModel) = true ↔ _
  rw [decide_eq_true_iff]
  rfl

theorem HasValue.lt_half_iff (h : HasValue .positive q x.toModel.unpack) : x < 0.5 ↔ q < 1 / 2 := by
  have hhalf : (2 : ℚ) ^ (52 + -53 : Int) = 1 / 2 := by norm_num
  rw [lt_iff_unpack, ← hhalf, ← h.lt_iff (by norm_num)]
  rfl

theorem HasValue.lt_two_pow_iff (h : HasValue .positive q x.toModel.unpack) :
    x < 4503599627370496 ↔ q < 2 ^ 52 := by
  have hpow : (2 : ℚ) ^ (52 + 0 : Int) = 2 ^ 52 := by norm_num
  rw [lt_iff_unpack, ← hpow, ← h.lt_iff (by norm_num)]
  rfl

theorem HasValue.abs_lt_half_iff (h : HasValue s q x.toModel.unpack) : x.abs < 0.5 ↔ q < 1 / 2 := by
  have habs : HasValue .positive q x.abs.toModel.unpack := h.abs.pack
  exact habs.lt_half_iff

theorem HasValue.lt_zero_iff (h : HasValue s q x.toModel.unpack) (hq : 0 < q) :
    x < 0 ↔ s = .negative := by
  have hzero : (0 : Float).toModel.unpack = .zero .positive := rfl
  rw [lt_iff_unpack, hzero]
  generalize x.toModel.unpack = u at h
  cases h with
  | zero hzero => exact absurd hzero hq.ne'
  | finite =>
    cases s with
    | negative => exact iff_of_true rfl rfl
    | positive => exact iff_of_false Bool.false_ne_true nofun

theorem eq_neg_zero_iff : x = -0 ↔ x.toModel.unpack = .zero .negative := by
  constructor
  · rintro rfl
    rfl
  · intro h
    apply eq_of_toModel
    rw [← pack_unpack x.toModel, h]
    rfl

end

section

variable {u v : UnpackedFloat} {s : Sign} {q : ℚ}

theorem HasValue.mul_infinity (h : HasValue s q u) (hq : q ≠ 0) (s' : Sign) :
    UnpackedFloat.mul Format.binary64 u (.infinity s') = .infinity (s * s') := by
  cases h with
  | zero hzero => exact absurd hzero hq
  | finite hm he hvalue => rfl

theorem HasValue.infinity_mul (h : HasValue s q u) (hq : q ≠ 0) (s' : Sign) :
    UnpackedFloat.mul Format.binary64 (.infinity s') u = .infinity (s' * s) := by
  cases h with
  | zero hzero => exact absurd hzero hq
  | finite hm he hvalue => rfl

theorem unpack_pack_of_not_finite (h : u.isFinite = false) : (Float.Model.pack u).unpack = u := by
  cases u with
  | notANumber => rfl
  | infinity s => exact unpack_pack_infinity s
  | zero => cases h
  | finite => cases h

theorem not_finite_abs (h : u.isFinite = false) : u.abs.isFinite = false := by
  cases u <;> first | rfl | cases h

theorem not_abs_lt (h : u.isFinite = false) (hv : v.isFinite = true) : u.abs.lt v = false := by
  cases u with
  | notANumber => rfl
  | infinity s => cases v <;> first | rfl | cases hv
  | zero => cases h
  | finite => cases h

theorem not_finite_mul (h : u.isFinite = false) (v : UnpackedFloat) :
    (UnpackedFloat.mul Format.binary64 u v).isFinite = false := by
  cases u <;> cases v <;> first | rfl | cases h

theorem not_finite_div (h : u.isFinite = false) (v : UnpackedFloat) :
    (UnpackedFloat.div Format.binary64 u v).isFinite = false := by
  cases u <;> cases v <;> first | rfl | cases h

variable {x y : Float}

theorem not_abs_lt_of_not_finite (h : x.isFinite = false) (hy : y.isFinite = true) :
    ¬x.abs < y := by
  have habs : x.abs.toModel.unpack = x.toModel.unpack.abs :=
    unpack_pack_of_not_finite (not_finite_abs h)
  rw [lt_iff_unpack, habs, not_abs_lt h hy]
  exact Bool.false_ne_true

theorem unpack_mul_of_not_finite (h : x.isFinite = false) (y : Float) :
    (x * y).toModel.unpack = UnpackedFloat.mul Format.binary64 x.toModel.unpack y.toModel.unpack :=
  unpack_pack_of_not_finite (not_finite_mul h _)

theorem unpack_div_of_not_finite (h : x.isFinite = false) (y : Float) :
    (x / y).toModel.unpack = UnpackedFloat.div Format.binary64 x.toModel.unpack y.toModel.unpack :=
  unpack_pack_of_not_finite (not_finite_div h _)

end

end DenseLinear.Binary64
