import DenseLinear.Dense.Vector
import DenseLinear.Proofs.Orthogonal

/-!
# Projections onto a line

Over an ordered field the inner product is bilinear, so the projection onto a line is linear in the
vector that is projected. What it takes off a vector is orthogonal to the line. So the square of the
distance to any point of the line is the square of the distance to the projection and that of the
distance from there, and the projection is the closest point of all.
-/

namespace DenseLinear

namespace Vec

variable {K : Type} [Field K] [LinearOrder K] {n : Nat} (c : K) (a b v : Vec K n)

theorem dot_addScaled : (addScaled c b a).dot v = a.dot v + c * b.dot v := by
  simp only [dot_eq, addScaled_apply, add_mul, mul_assoc, Finset.sum_add_distrib, Finset.mul_sum]

theorem dot_scale : (scale c a).dot v = a.dot v * c := by
  simp only [dot_eq, scale_apply, mul_right_comm, Finset.sum_mul]

/-- What is left of `a` without `b`. -/
abbrev minus : Vec K n := addScaled (-1) b a

theorem minus_apply (i : Fin n) : (a.minus b) i = a i - b i := by
  rw [addScaled_apply, neg_one_mul, sub_eq_add_neg]

theorem dot_minus : (a.minus b).dot v = a.dot v - b.dot v := by
  rw [dot_addScaled, neg_one_mul, sub_eq_add_neg]

theorem dot_self_minus : (a.minus b).dot (a.minus b) = a.dot a - 2 * a.dot b + b.dot b := by
  rw [dot_minus, dot_comm a, dot_comm b, dot_minus, dot_minus, dot_comm b a]
  ring

theorem projection_addScaled :
    (addScaled c b a).projection v = addScaled c (b.projection v) (a.projection v) := by
  ext i
  simp only [projection, scale_apply, addScaled_apply, dot_addScaled]
  ring

section

variable {v} (hv : v.dot v ≠ 0)
include hv

theorem dot_projection : (a.projection v).dot v = a.dot v := by
  rw [projection, dot_scale, mul_div_cancel₀ _ hv]

theorem dot_minus_projection : (a.minus (a.projection v)).dot v = 0 := by
  rw [dot_minus, dot_projection a hv, sub_self]

/-- A point of the line is its own projection. -/
theorem projection_scale : (scale c v).projection v = scale c v := by
  rw [projection, dot_scale, mul_div_cancel_left₀ _ hv]

theorem projection_projection : (a.projection v).projection v = a.projection v :=
  projection_scale _ hv

theorem projection_dot_scale : (a.projection v).dot (scale c v) = a.dot (scale c v) := by
  rw [dot_comm _ (scale c v), dot_comm _ (scale c v), dot_scale, dot_scale, dot_comm v,
    dot_projection a hv, dot_comm v]

/-- The squares of the distances from a vector to its projection, and from there to a point of the
line, add up to the square of the distance to that point. -/
theorem dot_self_minus_scale :
    (a.minus (scale c v)).dot (a.minus (scale c v)) =
      (a.minus (a.projection v)).dot (a.minus (a.projection v)) +
        ((a.projection v).minus (scale c v)).dot ((a.projection v).minus (scale c v)) := by
  have hself : (a.projection v).dot (a.projection v) = a.dot (a.projection v) :=
    a.projection_dot_scale _ hv
  rw [dot_self_minus, dot_self_minus, dot_self_minus, projection_dot_scale _ _ hv, hself]
  ring

theorem dot_self_eq : a.dot a = (a.minus (a.projection v)).dot (a.minus (a.projection v)) +
    (a.projection v).dot (a.projection v) := by
  have hself : (a.projection v).dot (a.projection v) = a.dot (a.projection v) :=
    a.projection_dot_scale _ hv
  rw [dot_self_minus, hself]
  ring

end

variable [IsStrictOrderedRing K]

theorem dot_self_nonneg : 0 ≤ v.dot v := by
  rw [dot_eq]
  exact Finset.sum_nonneg fun i _ => mul_self_nonneg (v i)

theorem dot_self_minus_pos {a b : Vec K n} (h : a ≠ b) : 0 < (a.minus b).dot (a.minus b) := by
  apply (a.minus b).dot_self_nonneg.lt_of_ne'
  intro hzero
  rw [dot_eq, Finset.sum_eq_zero_iff_of_nonneg fun i _ => mul_self_nonneg _] at hzero
  apply h
  ext i
  have hi := mul_self_eq_zero.mp (hzero i (Finset.mem_univ i))
  rwa [minus_apply, sub_eq_zero] at hi

theorem negligible_dot_self_iff : Negligible (v.dot v) ↔ v.dot v < 1 / 10 ^ 10 := by
  rw [negligible_iff, abs_of_nonneg v.dot_self_nonneg]

end Vec

namespace DenseVector

variable {K : Type} [Field K] [LinearOrder K] {n : Nat}

theorem projection_toArray {α : Type} [Scalar α] (hn : 0 < n) (a v : Vec α n) :
    projection a.toArray v.toArray =
      if Negligible (v.dot v) then .error .zeroVector else .ok (a.projection v).toArray := by
  simp only [projection, check_toArray hn, fit_toArray hn, bind, Except.bind, pure, Except.pure]

variable [IsStrictOrderedRing K]

/-- The projection onto a line is refused exactly for a direction that is too short. It is a point of
the line, what it leaves of the vector is orthogonal to the line, and it is no longer than the vector
and closer to it than any other point of the line. A second projection changes nothing, and that of
a sum is the sum of those of the terms. -/
theorem projection_closest (hn : 0 < n) (a v : Vec K n) :
    (projection a.toArray v.toArray = .error .zeroVector ↔ ∑ i, v i * v i < 1 / 10 ^ 10) ∧
    (¬∑ i, v i * v i < 1 / 10 ^ 10 →
      ∃ p : Vec K n, projection a.toArray v.toArray = .ok p.toArray ∧
        (∃ c, ∀ i, p i = c * v i) ∧
        ∑ i, (a i - p i) * v i = 0 ∧
        ∑ i, p i * p i ≤ ∑ i, a i * a i ∧
        (∀ w : Vec K n, (∃ c, ∀ i, w i = c * v i) → w ≠ p →
          ∑ i, (a i - p i) ^ 2 < ∑ i, (a i - w i) ^ 2) ∧
        projection p.toArray v.toArray = .ok p.toArray ∧
        ∀ b : Vec K n, ∃ q : Vec K n, projection b.toArray v.toArray = .ok q.toArray ∧
          projection (Vec.ofFn fun i => a i + b i).toArray v.toArray =
            .ok (Vec.ofFn fun i => p i + q i).toArray) := by
  have hneg : Negligible (v.dot v) ↔ ∑ i, v i * v i < 1 / 10 ^ 10 := by
    rw [v.negligible_dot_self_iff, Vec.dot_eq]
  rw [← hneg]
  constructor
  · rw [projection_toArray hn]
    split_ifs with h <;> simp [h]
  intro hnot
  have hv : v.dot v ≠ 0 := ne_zero_of_not_negligible hnot
  have hok (b : Vec K n) : projection b.toArray v.toArray = .ok (b.projection v).toArray := by
    rw [projection_toArray hn, if_neg hnot]
  have hsquare (x y : Vec K n) : ∑ i, (x i - y i) ^ 2 = (x.minus y).dot (x.minus y) := by
    simp only [Vec.dot_eq, Vec.minus_apply, sq]
  refine ⟨a.projection v, hok a, ⟨a.dot v / v.dot v, fun i => ?_⟩, ?_, ?_, ?_, ?_, ?_⟩
  · rw [Vec.projection, Vec.scale_apply, mul_comm]
  · simpa only [Vec.dot_eq, Vec.minus_apply] using a.dot_minus_projection hv
  · rw [← Vec.dot_eq, ← Vec.dot_eq, a.dot_self_eq hv]
    exact le_add_of_nonneg_left (Vec.dot_self_nonneg _)
  · rintro w ⟨c, hw⟩ hne
    obtain rfl : w = Vec.scale c v := by
      ext i
      rw [hw, Vec.scale_apply, mul_comm]
    rw [hsquare, hsquare, a.dot_self_minus_scale c hv]
    exact lt_add_of_pos_right _ (Vec.dot_self_minus_pos hne.symm)
  · rw [hok, a.projection_projection hv]
  · intro b
    have hsum (x y : Vec K n) : (Vec.ofFn fun i => x i + y i) = Vec.addScaled 1 y x := by
      ext i
      rw [Vec.entry_ofFn, Vec.addScaled_apply, one_mul]
    refine ⟨b.projection v, hok b, ?_⟩
    rw [hok, hsum, hsum, Vec.projection_addScaled]

def slanted : Vec ℚ 3 := .ofFn ![1, 2, 2]

def upright : Vec ℚ 3 := .ofFn ![0, 0, 3]

theorem projection_upright_slanted :
    0 < 3 ∧ ¬∑ i, slanted i * slanted i < 1 / 10 ^ 10 ∧
    ∃ p : Vec ℚ 3, projection upright.toArray slanted.toArray = .ok p.toArray ∧
      ∑ i, (upright i - p i) * slanted i = 0 ∧
      ∑ i, (upright i - p i) ^ 2 < ∑ i, (upright i - slanted i) ^ 2 := by
  have hlong : ¬∑ i, slanted i * slanted i < 1 / 10 ^ 10 := by decide +kernel
  obtain ⟨_, hproject⟩ := projection_closest (Nat.succ_pos 2) upright slanted
  obtain ⟨p, hp, ⟨c, hc⟩, horthogonal, _, hclosest, _⟩ := hproject hlong
  refine ⟨Nat.succ_pos 2, hlong, p, hp, horthogonal, hclosest _ ⟨1, fun i => (one_mul _).symm⟩ ?_⟩
  rintro rfl
  exact absurd horthogonal (by decide +kernel)

end DenseVector

end DenseLinear
