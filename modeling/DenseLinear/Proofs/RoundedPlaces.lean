import DenseLinear.Dense.Text
import DenseLinear.Proofs.PowersOfTen
import DenseLinear.Proofs.WholeNumbers
import DenseLinear.Proofs.ZeroText

/-!
# Rounding to decimal places

A number that is not negligible is lost if the power of ten overflows or vanishes, and is infinite
if it overflows where it is scaled or where it is scaled back. Otherwise its scaled value is rounded
to a whole number. If this is zero it keeps the sign, so a negative number can become the negative
zero.
-/

namespace DenseLinear

open Float.Model Float.Model.UnpackedFloat

namespace Binary64

section

variable {x : Float}

theorem not_finite_product (h : x.isFinite = false) (d : Int) :
    (x * decimalScale d).isFinite = false := by
  change (x * decimalScale d).toModel.unpack.isFinite = false
  rw [unpack_mul_of_not_finite h]
  exact not_finite_mul h _

/-- What is not finite stays so. -/
theorem not_finite_roundTo (h : x.isFinite = false) (d : Int) : (roundTo d x).isFinite = false := by
  have hnegligible : ¬Negligible x := not_abs_lt_of_not_finite h rfl
  have hproduct := not_finite_product h d
  unfold roundTo
  rw [if_neg hnegligible, roundHalfAway_of_not_finite hproduct]
  change (x * decimalScale d / decimalScale d).toModel.unpack.isFinite = false
  rw [unpack_div_of_not_finite hproduct]
  exact not_finite_div hproduct _

end

section

variable {x : Float} {d : Int} {s : Sign} {q r : ℚ}

theorem negligible_of_isZero (h : IsZero x) : Negligible x := by
  rcases h with rfl | rfl <;> decide

theorem HasValue.pos_of_not_negligible (h : HasValue s q x.toModel.unpack) (hx : ¬Negligible x) :
    0 < q := by
  apply lt_of_le_of_ne h.nonneg
  rintro rfl
  have hzero : IsZero x := isZero_iff.mpr ⟨s, h.eq_zero⟩
  exact hx (negligible_of_isZero hzero)

/-- An infinite product is only divided. -/
theorem roundTo_of_infinity (hx : ¬Negligible x)
    (hproduct : (x * decimalScale d).toModel.unpack = .infinity s) :
    (x * decimalScale d).isFinite = false ∧ (roundTo d x).toModel.unpack =
      UnpackedFloat.div Format.binary64 (.infinity s) (decimalScale d).toModel.unpack := by
  have hinfinite : (x * decimalScale d).isFinite = false := by
    change (x * decimalScale d).toModel.unpack.isFinite = false
    rw [hproduct]
    rfl
  refine ⟨hinfinite, ?_⟩
  unfold roundTo
  rw [if_neg hx, roundHalfAway_of_not_finite hinfinite, unpack_div_of_not_finite hinfinite,
    hproduct]

/-- A scale that overflows leaves nothing of the number. -/
theorem roundTo_of_lt (h : HasValue s q x.toModel.unpack) (hx : ¬Negligible x) (hd : 308 < d) :
    (x * decimalScale d).isFinite = false ∧ (roundTo d x).toModel.unpack = .notANumber := by
  have hq := h.pos_of_not_negligible hx
  have hscale := decimalScale_infinity hd
  have hproduct : (x * decimalScale d).toModel.unpack = .infinity s := by
    rw [toModel_mul, hscale, h.mul_infinity hq.ne', mul_positive, unpack_pack_infinity]
  obtain ⟨hinfinite, hu⟩ := roundTo_of_infinity hx hproduct
  refine ⟨hinfinite, ?_⟩
  rw [hu, hscale]
  rfl

/-- A scale that vanishes leaves nothing of the number. -/
theorem roundTo_of_neg_lt (h : HasValue s q x.toModel.unpack) (hx : ¬Negligible x)
    (hd : d < -308) : (roundTo d x).toModel.unpack = .notANumber := by
  have hscale := decimalScale_zero hd
  have hproduct : HasValue s 0 (x * decimalScale d).toModel.unpack := by
    have hzero : HasValue .positive 0 (decimalScale d).toModel.unpack := hscale ▸ .zero rfl
    have hrounded := h.mul hzero
    rw [mul_zero, mul_positive] at hrounded
    rw [hrounded.eq_zero (two_zpow_pos (-1075)).le]
    exact .zero rfl
  have hwhole := hproduct.roundHalfAway_of_lt_half (by norm_num)
  have hdiv : UnpackedFloat.div Format.binary64 (.zero s) (.zero .positive) = .notANumber := rfl
  unfold roundTo
  rw [if_neg hx, toModel_div, hwhole, hscale, hdiv]
  rfl

theorem roundTo_of_limit_le (h : HasValue s q x.toModel.unpack) (hx : ¬Negligible x)
    (hscale : HasValue .positive r (decimalScale d).toModel.unpack) (hlimit : limit ≤ q * r) :
    (x * decimalScale d).isFinite = false ∧ (roundTo d x).toModel.unpack = .infinity s := by
  have hrounded := h.mul hscale
  rw [mul_positive] at hrounded
  obtain ⟨hinfinite, hu⟩ := roundTo_of_infinity hx (hrounded.eq_infinity hlimit)
  refine ⟨hinfinite, ?_⟩
  rw [hu]
  generalize (decimalScale d).toModel.unpack = u at hscale
  cases hscale with
  | zero hzero =>
    rw [hzero, mul_zero] at hlimit
    exact absurd (zero_lt_one.trans one_lt_limit) hlimit.not_gt
  | finite hm he hvalue => exact congrArg _ (div_positive s)

/-- A finite product is rounded to a whole number, and the quotient of this by the scale is
rounded. -/
theorem exists_rounded_roundTo (h : HasValue s q x.toModel.unpack) (hx : ¬Negligible x)
    (hscale : HasValue .positive r (decimalScale d).toModel.unpack) (hr : 0 < r)
    (hlimit : q * r < limit) :
    ∃ p, HasValue s p (x * decimalScale d).toModel.unpack ∧
      Rounded s (⌊p + 1 / 2⌋₊ / r) (roundTo d x).toModel.unpack := by
  have hproduct := h.mul hscale
  rw [mul_positive] at hproduct
  obtain ⟨p, hp⟩ := hproduct.exists_value hlimit
  refine ⟨p, hp, ?_⟩
  have hquotient := hp.roundHalfAway.div hscale hr.ne'
  rw [div_positive] at hquotient
  unfold roundTo
  rwa [if_neg hx]

/-- Scaled back, the whole number next to `q` is zero only if it was zero before. -/
theorem Rounded.eq_zero_iff_lt_half {y : Float} {u : UnpackedFloat} {t : Sign}
    (hy : 0 < magnitude y) (hu : Rounded s (⌊q + 1 / 2⌋₊ / magnitude y) u) :
    u = .zero t ↔ s = t ∧ q < 1 / 2 := by
  by_cases hq : q < 1 / 2
  · have hfloor : ⌊q + 1 / 2⌋₊ = 0 := by
      rw [Nat.floor_eq_zero]
      linarith
    rw [hfloor, Nat.cast_zero, zero_div] at hu
    rw [hu.eq_zero (two_zpow_pos (-1075)).le]
    constructor
    · intro hzero
      exact ⟨UnpackedFloat.zero.inj hzero, hq⟩
    · rintro ⟨rfl, -⟩
      rfl
  · have hwhole : (1 : ℚ) ≤ ⌊q + 1 / 2⌋₊ := by
      have hfloor : 1 ≤ ⌊q + 1 / 2⌋₊ := (Nat.one_le_floor_iff _).mpr (by linarith)
      exact_mod_cast hfloor
    have hleast := least_lt_div hwhole hy (magnitude_lt_limit _)
    exact iff_of_false (hu.ne_zero hleast _) fun h => hq h.2

end

/-- What becomes of a number of the sign `s` that is not negligible, and why. -/
inductive Outcome (d : Int) (x : Float) (s : Sign) (u : UnpackedFloat) : Prop where
  | lost (hd : 308 < d ∧ (x * decimalScale d).isFinite = false ∨ d < -308) (hu : u = .notANumber)
  | overflow (hd : d.natAbs ≤ 308) (hlimit : limit ≤ magnitude x * magnitude (decimalScale d))
      (hproduct : (x * decimalScale d).isFinite = false) (hu : u = .infinity s)
  | quotient {p : ℚ} (hd : d.natAbs ≤ 308) (hscale : 0 < magnitude (decimalScale d))
      (hlimit : magnitude x * magnitude (decimalScale d) < limit)
      (hproduct : HasValue s p (x * decimalScale d).toModel.unpack)
      (hu : Rounded s (⌊p + 1 / 2⌋₊ / magnitude (decimalScale d)) u)

section

variable {x : Float} {s : Sign} {q : ℚ}

theorem HasValue.outcome (h : HasValue s q x.toModel.unpack) (hx : ¬Negligible x) (d : Int) :
    Outcome d x s (roundTo d x).toModel.unpack := by
  by_cases hd : d.natAbs ≤ 308
  · obtain ⟨r, hscale, hr, _⟩ := exists_decimalScale hd
    have hmagnitude := h.magnitude_eq
    have hmagnitude' := hscale.magnitude_eq
    subst hmagnitude hmagnitude'
    by_cases hlimit : limit ≤ magnitude x * magnitude (decimalScale d)
    · obtain ⟨hproduct, hu⟩ := roundTo_of_limit_le h hx hscale hlimit
      exact .overflow hd hlimit hproduct hu
    · have hbelow := lt_of_not_ge hlimit
      obtain ⟨p, hp, hu⟩ := exists_rounded_roundTo h hx hscale hr hbelow
      exact .quotient hd hr hbelow hp hu
  · obtain hlow | hhigh : d < -308 ∨ 308 < d := by omega
    · exact .lost (.inr hlow) (roundTo_of_neg_lt h hx hlow)
    · obtain ⟨hproduct, hu⟩ := roundTo_of_lt h hx hhigh
      exact .lost (.inl ⟨hhigh, hproduct⟩) hu

theorem roundTo_eq_neg_zero_iff (d : Int) (x : Float) :
    roundTo d x = -0 ↔
      ¬Negligible x ∧ x < 0 ∧ (x * decimalScale d).abs < 0.5 ∧ -308 ≤ d := by
  by_cases hnegligible : Negligible x
  · have hzero : roundTo d x = 0 := if_pos hnegligible
    simp [hzero, hnegligible, zero_ne_neg_zero]
  by_cases hx : x.isFinite = true
  · obtain ⟨s, h⟩ := exists_hasValue hx
    have hpos := h.pos_of_not_negligible hnegligible
    rw [eq_neg_zero_iff, h.lt_zero_iff hpos]
    cases h.outcome hnegligible d with
    | lost hd hu =>
      rw [hu]
      refine iff_of_false nofun ?_
      rintro ⟨-, -, habs, hle⟩
      obtain ⟨-, hproduct⟩ | hlow := hd
      · exact not_abs_lt_of_not_finite hproduct rfl habs
      · omega
    | overflow hd hlimit hproduct hu =>
      rw [hu]
      refine iff_of_false nofun ?_
      rintro ⟨-, -, habs, -⟩
      exact not_abs_lt_of_not_finite hproduct rfl habs
    | @quotient p hd hscale hlimit hproduct hu =>
      have hle : -308 ≤ d := by omega
      rw [hproduct.abs_lt_half_iff, hu.eq_zero_iff_lt_half hscale]
      exact ⟨fun h => ⟨hnegligible, h.1, h.2, hle⟩, fun h => ⟨h.2.1, h.2.2.1⟩⟩
  · have hnot : x.isFinite = false := by simpa using hx
    have hresult := not_finite_roundTo hnot d
    have hproduct : ¬(x * decimalScale d).abs < 0.5 :=
      not_abs_lt_of_not_finite (not_finite_product hnot d) rfl
    have hne : roundTo d x ≠ -0 := by
      intro h
      rw [h] at hresult
      cases hresult
    simp [hne, hproduct]

variable (hx : x.isFinite = true) (d : Int)

include hx

theorem roundTo_isNaN_iff : (roundTo d x).isNaN = true ↔ ¬Negligible x ∧ 308 < d.natAbs := by
  by_cases hnegligible : Negligible x
  · have hzero : roundTo d x = 0 := if_pos hnegligible
    rw [hzero]
    exact iff_of_false (by decide) fun h => h.1 hnegligible
  obtain ⟨s, h⟩ := exists_hasValue hx
  change (roundTo d x).toModel.unpack.isNaN = true ↔ _
  cases h.outcome hnegligible d with
  | lost hd hu =>
    rw [hu]
    exact iff_of_true rfl ⟨hnegligible, by omega⟩
  | overflow hd hlimit hproduct hu =>
    rw [hu]
    exact iff_of_false Bool.false_ne_true fun h => h.2.not_ge hd
  | quotient hd hscale hlimit hproduct hu =>
    refine iff_of_false ?_ fun h => h.2.not_ge hd
    generalize (roundTo d x).toModel.unpack = u at hu
    cases hu <;> exact Bool.false_ne_true

theorem roundTo_isInf_iff : (roundTo d x).isInf = true ↔
    ¬Negligible x ∧ d.natAbs ≤ 308 ∧
      (limit ≤ magnitude x * magnitude (decimalScale d) ∨
        limit * magnitude (decimalScale d) ≤ magnitude (roundHalfAway (x * decimalScale d))) := by
  by_cases hnegligible : Negligible x
  · have hzero : roundTo d x = 0 := if_pos hnegligible
    rw [hzero]
    exact iff_of_false (by decide) fun h => h.1 hnegligible
  obtain ⟨s, h⟩ := exists_hasValue hx
  change (roundTo d x).toModel.unpack.isInf = true ↔ _
  cases h.outcome hnegligible d with
  | lost hd hu =>
    rw [hu]
    exact iff_of_false Bool.false_ne_true fun h => absurd h.2.1 (by omega)
  | overflow hd hlimit hproduct hu =>
    rw [hu]
    exact iff_of_true rfl ⟨hnegligible, hd, .inl hlimit⟩
  | @quotient p hd hscale hlimit hproduct hu =>
    rw [hproduct.roundHalfAway.magnitude_eq, ← le_div_iff₀ hscale]
    by_cases hq : limit ≤ ⌊p + 1 / 2⌋₊ / magnitude (decimalScale d)
    · rw [hu.eq_infinity hq]
      exact iff_of_true rfl ⟨hnegligible, hd, .inr hq⟩
    · obtain ⟨r, hr⟩ := hu.exists_value (lt_of_not_ge hq)
      refine iff_of_false ?_ ?_
      · generalize (roundTo d x).toModel.unpack = u at hr
        cases hr <;> exact Bool.false_ne_true
      · rintro ⟨-, -, hlarge | hlarge⟩
        · exact hlarge.not_gt hlimit
        · exact hq hlarge

/-- With a scale of at least one, only the product can overflow. -/
theorem roundTo_isFinite_iff (hd : 0 ≤ d) : (roundTo d x).isFinite = true ↔
    Negligible x ∨ d ≤ 308 ∧ magnitude x * magnitude (decimalScale d) < limit := by
  have hsplit : (roundTo d x).isFinite = true ↔
      ¬((roundTo d x).isNaN = true ∨ (roundTo d x).isInf = true) := by
    change (roundTo d x).toModel.unpack.isFinite = true ↔
      ¬((roundTo d x).toModel.unpack.isNaN = true ∨ (roundTo d x).toModel.unpack.isInf = true)
    cases (roundTo d x).toModel.unpack <;>
      simp [UnpackedFloat.isFinite, UnpackedFloat.isNaN, UnpackedFloat.isInf]
  rw [hsplit, roundTo_isNaN_iff hx, roundTo_isInf_iff hx]
  by_cases hnegligible : Negligible x
  · simp [hnegligible]
  by_cases hmost : d ≤ 308
  · obtain ⟨r, hscale, -, hone⟩ := exists_decimalScale (d := d) (by omega)
    have hwhole := magnitude_lt_limit (roundHalfAway (x * decimalScale d))
    have hle : limit ≤ limit * magnitude (decimalScale d) := by
      rw [hscale.magnitude_eq]
      exact le_mul_of_one_le_right (zero_le_one.trans one_lt_limit.le) (hone hd)
    have hquotient := (hwhole.trans_le hle).not_ge
    have hless : d.natAbs ≤ 308 := by omega
    simp [hnegligible, hmost, hless, hquotient]
  · have hmore : 308 < d.natAbs := by omega
    simp [hnegligible, hmost, hmore]

end

end Binary64

namespace DenseMatrix

open Binary64

/-- A rounded entry is the negative zero exactly if the entry is negative and not negligible, and its
scaled magnitude is below one half, unless the scale vanishes. No other number is written `-0`. -/
theorem round_eq_neg_zero_iff (A : DenseMatrix Float) (d : Int) (i : Fin A.height)
    (j : Fin A.width) :
    let x := A.entries i j
    let y := (A.round d).entries i j
    (y = -0 ↔ ¬Negligible x ∧ x < 0 ∧ (x * decimalScale d).abs < 0.5 ∧ -308 ≤ d) ∧
    (plainText y = "-0" ↔ y = -0) := by
  intro x y
  have hy : y = roundTo d x := A.entries.map_apply _ i j
  rw [plainText_eq_neg_zero_iff, hy]
  exact ⟨roundTo_eq_neg_zero_iff d x, Iff.rfl⟩

def quarter : Mat Float 1 1 := .ofFn ![![-0.25]]

theorem round_quarter :
    let A : DenseMatrix Float := ⟨1, 1, Nat.one_pos, Nat.one_pos, quarter⟩
    (∀ i j, (A.entries i j).isFinite = true) ∧ decimalScale 0 = 1 ∧
      A.entries 0 0 * decimalScale 0 = -0.25 ∧ (A.round 0).rows = #[#[-0]] ∧
      (A.round 0).display none = "matrix([[-0]])" := by
  decide +kernel

/-- A rounded entry is not a number exactly if the scale overflows or vanishes, and infinite exactly
if the scaled entry overflows, or the whole number next to it when it is scaled back. With a scale of
at least one only the first of these can happen. Negligible entries are always rounded to zero. -/
theorem round_not_finite_iff (A : DenseMatrix Float)
    (hA : ∀ i j, (A.entries i j).isFinite = true) (d : Int) (i : Fin A.height) (j : Fin A.width) :
    let x := A.entries i j
    let y := (A.round d).entries i j
    let scale := decimalScale d
    (y.isNaN = true ↔ ¬Negligible x ∧ 308 < d.natAbs) ∧
    (y.isInf = true ↔ ¬Negligible x ∧ d.natAbs ≤ 308 ∧
      (limit ≤ magnitude x * magnitude scale ∨
        limit * magnitude scale ≤ magnitude (roundHalfAway (x * scale)))) ∧
    (0 ≤ d → (y.isFinite = true ↔
      Negligible x ∨ d ≤ 308 ∧ magnitude x * magnitude scale < limit)) := by
  intro x y scale
  have hy : y = roundTo d x := A.entries.map_apply _ i j
  rw [hy]
  exact ⟨roundTo_isNaN_iff (hA i j) d, roundTo_isInf_iff (hA i j) d,
    roundTo_isFinite_iff (hA i j) d⟩

/-- One, and two numbers near the greatest. -/
def towering : Mat Float 1 3 := .ofFn ![![1, 1e300, 1.7e308]]

theorem round_towering_finite :
    let A : DenseMatrix Float := ⟨1, 3, Nat.one_pos, Nat.succ_pos 2, towering⟩
    let round (d : Int) : Mat Float 1 3 := (A.round d).entries
    (∀ i j, (A.entries i j).isFinite = true) ∧ (round 10 0 0).isFinite = true ∧
      (round 10 0 1).isInf = true ∧ (round (-308) 0 2).isInf = true ∧
      (round 400 0 0).isNaN = true := by
  intro A round
  have hA : ∀ i j, (A.entries i j).isFinite = true := by decide +kernel
  have hone : magnitude (towering 0 0) * magnitude (decimalScale 10) < limit := by decide +kernel
  have hproduct : limit ≤ magnitude (towering 0 1) * magnitude (decimalScale 10) := by
    decide +kernel
  have hquotient : limit * magnitude (decimalScale (-308)) ≤
      magnitude (roundHalfAway (towering 0 2 * decimalScale (-308))) := by
    decide +kernel
  obtain ⟨-, -, hfinite⟩ := round_not_finite_iff A hA 10 (0 : Fin 1) (0 : Fin 3)
  obtain ⟨-, hinfinite, -⟩ := round_not_finite_iff A hA 10 (0 : Fin 1) (1 : Fin 3)
  obtain ⟨-, hinfinite', -⟩ := round_not_finite_iff A hA (-308) (0 : Fin 1) (2 : Fin 3)
  obtain ⟨hlost, -⟩ := round_not_finite_iff A hA 400 (0 : Fin 1) (0 : Fin 3)
  exact ⟨hA, (hfinite (by decide)).mpr (.inr ⟨by decide, hone⟩),
    hinfinite.mpr ⟨by decide +kernel, by decide, .inl hproduct⟩,
    hinfinite'.mpr ⟨by decide +kernel, by decide, .inr hquotient⟩,
    hlost.mpr ⟨by decide +kernel, by decide⟩⟩

theorem round_towering :
    let A : DenseMatrix Float := ⟨1, 3, Nat.one_pos, Nat.succ_pos 2, towering⟩
    (∀ i j, (A.entries i j).isFinite = true) ∧
      (A.round 400).rows = #[#[0 / 0, 0 / 0, 0 / 0]] ∧
      (A.round (-400)).rows = #[#[0 / 0, 0 / 0, 0 / 0]] ∧
      (A.round 10).rows = #[#[1, 1 / 0, 1 / 0]] ∧ (A.round (-308)).rows = #[#[0, 0, 1 / 0]] := by
  decide +kernel

end DenseMatrix

end DenseLinear
