import DenseLinear.Proofs.IterationRuns

/-!
# Distances between columns

What the orthonormalization leaves of a column is orthogonal to the columns before it, and differs
from the column by a combination of them. So its length is the Euclidean distance of the column from
their span, and a column is refused exactly if it is the first whose distance is below the
tolerance. The distances are also the diagonal of every other pair of orthogonal factors, so there
is one pair at most.
-/

namespace DenseLinear

open scoped RealInnerProductSpace

theorem infDist_eq_norm_of_orthogonal {E : Type} [NormedAddCommGroup E] [InnerProductSpace ℝ E]
    {U : Submodule ℝ E} {v w : E} (hv : v - w ∈ U) (hw : ∀ u ∈ U, ⟪w, u⟫ = 0) :
    Metric.infDist v U = ‖w‖ := by
  have hmin := U.norm_eq_iInf_iff_real_inner_eq_zero (u := v) hv
  rw [sub_sub_cancel] at hmin
  rw [Metric.infDist_eq_iInf, hmin.mpr hw]
  simp only [dist_eq_norm]

namespace Vec

variable {m : Nat}

noncomputable def point (v : Vec ℝ m) : EuclideanSpace ℝ (Fin m) := WithLp.toLp _ v.entry

theorem inner_point (v w : Vec ℝ m) : ⟪v.point, w.point⟫ = v.dot w := by
  rw [dot_eq, PiLp.inner_apply]
  apply Finset.sum_congr rfl
  intro p _
  exact mul_comm _ _

theorem norm_point (v : Vec ℝ m) : ‖v.point‖ = v.norm := by
  rw [norm_eq_sqrt_real_inner, inner_point]
  rfl

end Vec

namespace Mat

variable {m n : Nat} {A q : Mat ℝ m n} {r : Mat ℝ n n} {c : Fin n}

noncomputable def spanBefore (A : Mat ℝ m n) (c : Fin n) :
    Submodule ℝ (EuclideanSpace ℝ (Fin m)) :=
  Submodule.span ℝ (Set.range fun k : Fin c => (A.col (before c k)).point)

/-- The Euclidean distance of column `c` from the linear combinations of the columns before it. -/
noncomputable def distanceBefore (A : Mat ℝ m n) (c : Fin n) : ℝ :=
  Metric.infDist (A.col c).point (A.spanBefore c)

theorem col_mem_spanBefore (A : Mat ℝ m n) {k c : Fin n} (h : k < c) :
    (A.col k).point ∈ A.spanBefore c :=
  Submodule.subset_span ⟨⟨k, h⟩, rfl⟩

theorem spanBefore_le {U : Submodule ℝ (EuclideanSpace ℝ (Fin m))}
    (h : ∀ k < c, (A.col k).point ∈ U) : A.spanBefore c ≤ U := by
  apply Submodule.span_le.mpr
  rintro _ ⟨k, rfl⟩
  exact h _ (before_lt c k)

theorem sum_mem_spanBefore (A : Mat ℝ m n) {a : Fin n → ℝ} (ha : ∀ k, c ≤ k → a k = 0) :
    ∑ k, a k • (A.col k).point ∈ A.spanBefore c := by
  apply Submodule.sum_mem
  intro k _
  rcases lt_or_ge k c with hk | hk
  · exact Submodule.smul_mem _ _ (A.col_mem_spanBefore hk)
  · rw [ha k hk, zero_smul]
    exact Submodule.zero_mem _

theorem point_eq_sum {v : Vec ℝ m} {a : Fin n → ℝ} (h : ∀ p, v p = ∑ k, a k * q p k) :
    v.point = ∑ k, a k • (q.col k).point := by
  ext p
  simp [Vec.point, h]

theorem exists_sum_of_mem_spanBefore {u : EuclideanSpace ℝ (Fin m)} (hu : u ∈ A.spanBefore c) :
    ∃ a : Fin n → ℝ, (∀ k, c ≤ k → a k = 0) ∧ u = ∑ k, a k • (A.col k).point := by
  induction hu using Submodule.span_induction with
  | mem u hu =>
    obtain ⟨k, rfl⟩ := hu
    refine ⟨Pi.single (before c k) 1, ?_, ?_⟩
    · intro l hl
      exact Pi.single_eq_of_ne ((before_lt c k).trans_le hl).ne' 1
    · simp [Pi.single_apply]
  | zero => exact ⟨0, fun _ _ => rfl, by simp⟩
  | add u v _ _ hu hv =>
    obtain ⟨a, ha, rfl⟩ := hu
    obtain ⟨b, hb, rfl⟩ := hv
    refine ⟨a + b, ?_, ?_⟩
    · intro k hk
      rw [Pi.add_apply, ha k hk, hb k hk, add_zero]
    · simp only [Pi.add_apply, add_smul, Finset.sum_add_distrib]
  | smul t u _ hu =>
    obtain ⟨a, ha, rfl⟩ := hu
    refine ⟨t • a, ?_, ?_⟩
    · intro k hk
      rw [Pi.smul_apply, ha k hk, smul_zero]
    · simp only [Pi.smul_apply, smul_assoc, Finset.smul_sum]

theorem mulVec_point (A : Mat ℝ m n) (x : Vec ℝ n) :
    (A.mulVec x).point = ∑ k, x k • (A.col k).point := by
  apply point_eq_sum
  intro p
  rw [mulVec_entry]
  exact Finset.sum_congr rfl fun k _ => mul_comm _ _

/-- A column of a product is a combination of the columns of the first factor. -/
theorem col_point_eq_sum (h : ∀ p, (q.mul r) p c = A p c) :
    (A.col c).point = ∑ k, r k c • (q.col k).point := by
  apply point_eq_sum
  intro p
  rw [col_apply, ← h, mul_entry]
  exact Finset.sum_congr rfl fun k _ => mul_comm _ _

/-- Without its part along column `c` of the first factor, column `c` of the product is a combination
of the columns of that factor before `c`. -/
theorem col_point_sub_mem {U : Submodule ℝ (EuclideanSpace ℝ (Fin m))}
    (hbelow : ∀ a b, b < a → r a b = 0) (h : ∀ p, (q.mul r) p c = A p c)
    (hU : ∀ k < c, (q.col k).point ∈ U) :
    (A.col c).point - r c c • (q.col c).point ∈ U := by
  rw [col_point_eq_sum h, ← Finset.add_sum_erase _ _ (Finset.mem_univ c), add_sub_cancel_left]
  apply Submodule.sum_mem
  intro k hk
  rcases lt_or_gt_of_ne (Finset.ne_of_mem_erase hk) with hlt | hgt
  · exact Submodule.smul_mem _ _ (hU k hlt)
  · rw [hbelow k c hgt, zero_smul]
    exact Submodule.zero_mem _

/-- An upper triangular factor without zeros on its diagonal keeps the span of the first columns. -/
theorem spanBefore_eq (hbelow : ∀ a b, b < a → r a b = 0) (hdiag : ∀ k < c, r k k ≠ 0)
    (hmul : ∀ p, ∀ k < c, (q.mul r) p k = A p k) : A.spanBefore c = q.spanBefore c := by
  have hcol (k : Fin n) (hk : k < c) : (A.col k).point = ∑ j, r j k • (q.col j).point :=
    col_point_eq_sum fun p => hmul p k hk
  apply le_antisymm
  · apply spanBefore_le
    intro k hk
    rw [hcol k hk]
    exact q.sum_mem_spanBefore fun j hj => hbelow j k (hk.trans_le hj)
  · have hmem (k : Fin n) : k < c → (q.col k).point ∈ A.spanBefore c := by
      induction k using WellFoundedLT.induction with
      | ind k ih =>
        intro hk
        have hrest := col_point_sub_mem hbelow (fun p => hmul p k hk)
          fun j hj => ih j hj (hj.trans hk)
        rw [Submodule.sub_mem_iff_right _ (A.col_mem_spanBefore hk)] at hrest
        exact (Submodule.smul_mem_iff _ (hdiag k hk)).mp hrest
    exact spanBefore_le hmem

theorem inner_eq_zero_of_cols {w : EuclideanSpace ℝ (Fin m)}
    (h : ∀ k < c, ⟪w, (A.col k).point⟫ = 0) : ∀ u ∈ A.spanBefore c, ⟪w, u⟫ = 0 := by
  have hle : A.spanBefore c ≤ (ℝ ∙ w)ᗮ :=
    spanBefore_le fun k hk => Submodule.mem_orthogonal_singleton_iff_inner_right.mpr (h k hk)
  exact fun u hu => Submodule.mem_orthogonal_singleton_iff_inner_right.mp (hle hu)

/-- The distance is found from other columns with the same span, if column `c` differs from a vector
orthogonal to them by a combination of them. -/
theorem distanceBefore_eq_norm {w : EuclideanSpace ℝ (Fin m)}
    (hspan : A.spanBefore c = q.spanBefore c) (hv : (A.col c).point - w ∈ q.spanBefore c)
    (hw : ∀ k < c, ⟪w, (q.col k).point⟫ = 0) : A.distanceBefore c = ‖w‖ := by
  rw [distanceBefore, hspan]
  exact infDist_eq_norm_of_orthogonal hv (inner_eq_zero_of_cols hw)

end Mat

namespace QR

variable {m n : Nat} {A : Mat ℝ m n} {f : QR ℝ m n} {c : Fin n}

theorem point_sub_rest_mem (A q : Mat ℝ m n) (c : Fin n) :
    (A.col c).point - (rest A q c).point ∈ q.spanBefore c := by
  have hcoeff (k : Fin n) (hk : c ≤ k) : (coefficients q c (A.col c)) k = 0 :=
    coefficients_eq_zero q _ hk
  have hsum : (A.col c).point - (rest A q c).point =
      ∑ k, (coefficients q c (A.col c)) k • (q.col k).point := by
    ext p
    simp [Vec.point, rest, remainder_eq q hcoeff]
  rw [hsum]
  exact q.sum_mem_spanBefore hcoeff

/-- The length that a column is refused or scaled by is its distance from the columns before. -/
theorem FactorsUpTo.distanceBefore (hf : f.FactorsUpTo A c) :
    A.distanceBefore c = (rest A f.q c).norm := by
  have hspan : A.spanBefore c = f.q.spanBefore c :=
    Mat.spanBefore_eq hf.below
      (fun k hk => (lt_of_lt_of_le tolerance_pos (hf.diagonal k hk)).ne')
      (fun p k hk => hf.product p k hk)
  rw [← Vec.norm_point]
  apply Mat.distanceBefore_eq_norm hspan (point_sub_rest_mem A f.q c)
  intro k hk
  rw [Vec.inner_point, Vec.dot_comm]
  exact hf.orthonormal.dot_rest hk

theorem distanceBefore_zero (A : Mat ℝ m (n + 1)) : A.distanceBefore 0 = (A.col 0).norm :=
  FactorsUpTo.distanceBefore (f := ⟨.zero m (n + 1), .zero (n + 1) (n + 1)⟩)
    (upTo_factors (k := 0) (h := Nat.zero_le _) rfl)

theorem exists_upTo_iff {k : Nat} (h : k ≤ n) :
    (∃ f, upTo A k h = .ok f) ↔ ∀ c : Fin n, c.val < k → 1 / 10 ^ 10 ≤ A.distanceBefore c := by
  induction k with
  | zero => exact ⟨fun _ c hc => absurd hc (Nat.not_lt_zero _), fun _ => ⟨_, rfl⟩⟩
  | succ k ih =>
    constructor
    · rintro ⟨g, hg⟩ c hc
      obtain ⟨f, hf, hstep⟩ := tryAfterSteps_succ_eq_ok.mp hg
      rcases lt_or_eq_of_lt_succ (i := ⟨k, h⟩) hc with hlt | rfl
      · exact (ih _).mp ⟨f, hf⟩ c hlt
      · rw [FactorsUpTo.distanceBefore (c := ⟨k, h⟩) (upTo_factors hf)]
        exact (step_eq_ok hstep).1
    · intro hdist
      obtain ⟨f, hf⟩ :=
        (ih (Nat.le_of_succ_le h)).mpr fun c hc => hdist c (Nat.lt_succ_of_lt hc)
      have hlong := hdist ⟨k, h⟩ (Nat.lt_succ_self k)
      rw [FactorsUpTo.distanceBefore (c := ⟨k, h⟩) (upTo_factors hf)] at hlong
      have hstep := step_eq A ⟨k, h⟩ f
      rw [if_neg (not_lt.mpr hlong)] at hstep
      exact ⟨_, tryAfterSteps_succ_eq_ok.mpr ⟨f, hf, hstep⟩⟩

theorem step_eq_error {α : Type} [RootScalar α] {A : Mat α m n} {f : QR α m n} {i e : Fin n}
    (h : step A i f = .error e) : e = i := by
  simp only [step] at h
  split_ifs at h
  exact (Except.error.inj h).symm

theorem qr_eq_error_iff : A.qr = .error c ↔
    A.distanceBefore c < 1 / 10 ^ 10 ∧ ∀ k < c, 1 / 10 ^ 10 ≤ A.distanceBefore k := by
  rw [Mat.qr, upTo, tryAfterSteps_eq_error_iff fun _ _ _ => step_eq_error]
  change (∃ f, upTo A c _ = .ok f) ∧ (¬∃ f, upTo A (c + 1) _ = .ok f) ↔ _
  rw [exists_upTo_iff, exists_upTo_iff]
  constructor
  · rintro ⟨hbefore, hstop⟩
    refine ⟨?_, fun k hk => hbefore k hk⟩
    by_contra hlong
    apply hstop
    intro k hk
    rcases lt_or_eq_of_lt_succ hk with hlt | rfl
    · exact hbefore k hlt
    · exact not_lt.mp hlong
  · rintro ⟨hshort, hbefore⟩
    exact ⟨fun k hk => hbefore k hk, fun h => hshort.not_ge (h c (Nat.lt_succ_self _))⟩

theorem exists_qr_error (h : A.distanceBefore c < 1 / 10 ^ 10) : ∃ k ≤ c, A.qr = .error k := by
  cases hqr : A.qr with
  | error k => exact ⟨k, not_lt.mp fun hck => ((qr_eq_error_iff.mp hqr).2 c hck).not_gt h, rfl⟩
  | ok f => exact absurd h ((exists_upTo_iff le_rfl).mp ⟨f, hqr⟩ c c.isLt).not_gt

/-- There are at most as many orthonormal columns as rows. -/
theorem OrthonormalUpTo.le {q : Mat ℝ m n} {k : Nat} (hq : OrthonormalUpTo k q) (hk : k ≤ n) :
    k ≤ m := by
  have horth : Orthonormal ℝ fun j : Fin k => (q.col (Fin.castLE hk j)).point := by
    rw [orthonormal_iff_ite]
    intro a b
    rw [Vec.inner_point, hq _ _ a.isLt b.isLt]
    simp only [Fin.castLE_inj]
  have hcard := horth.linearIndependent.fintype_card_le_finrank
  rwa [Fintype.card_fin, finrank_euclideanSpace_fin] at hcard

/-- Of the first columns, one more than there are rows, one is refused. -/
theorem exists_qr_error_of_wide (h : m < n) : ∃ k : Fin n, k.val ≤ m ∧ A.qr = .error k := by
  have hstop : ¬∃ f, upTo A (m + 1) h = .ok f := by
    rintro ⟨f, hf⟩
    exact Nat.not_succ_le_self m ((upTo_factors hf).orthonormal.le h)
  rw [exists_upTo_iff] at hstop
  push Not at hstop
  obtain ⟨c, hc, hshort⟩ := hstop
  obtain ⟨k, hk, hqr⟩ := exists_qr_error hshort
  exact ⟨k, le_trans (Fin.le_def.mp hk) (Nat.le_of_lt_succ hc), hqr⟩

/-- An orthogonal and a triangular factor of `A`, with a positive diagonal. -/
structure Factors (A : Mat ℝ m n) (f : QR ℝ m n) : Prop where
  orthonormal : f.q.transpose.mul f.q = .identity n
  below : ∀ r c, c < r → f.r r c = 0
  positive : ∀ c, 0 < f.r c c
  mul_eq : f.q.mul f.r = A

theorem Factors.distanceBefore (hf : f.Factors A) (c : Fin n) : A.distanceBefore c = f.r c c := by
  have hmul (p : Fin m) (k : Fin n) : (f.q.mul f.r) p k = A p k := by rw [hf.mul_eq]
  have hspan : A.spanBefore c = f.q.spanBefore c :=
    Mat.spanBefore_eq hf.below (fun k _ => (hf.positive k).ne') fun p k _ => hmul p k
  have hunit : ‖(f.q.col c).point‖ = 1 := by
    rw [Vec.norm_point]
    apply Vec.norm_eq_of_dot zero_le_one
    rw [dot_col hf.orthonormal, if_pos rfl, mul_one]
  have hlength : ‖f.r c c • (f.q.col c).point‖ = f.r c c := by
    rw [norm_smul, hunit, mul_one, Real.norm_of_nonneg (hf.positive c).le]
  rw [← hlength]
  apply Mat.distanceBefore_eq_norm hspan
  · exact Mat.col_point_sub_mem hf.below (fun p => hmul p c) fun k hk => f.q.col_mem_spanBefore hk
  · intro k hk
    rw [inner_smul_left, Vec.inner_point, dot_col hf.orthonormal, if_neg hk.ne', mul_zero]

theorem FactorsUpTo.factors (hf : f.FactorsUpTo A n) : f.Factors A :=
  ⟨hf.transpose_mul_self, hf.below, fun c => lt_of_lt_of_le tolerance_pos (hf.diagonal c c.isLt),
    hf.mul_eq⟩

/-- Factors with a positive diagonal are found if each column is far enough from those before. -/
theorem qr_eq_ok_iff_factors :
    A.qr = .ok f ↔ f.Factors A ∧ ∀ c, 1 / 10 ^ 10 ≤ A.distanceBefore c := by
  constructor
  · intro h
    exact ⟨(upTo_factors h).factors, fun c => (exists_upTo_iff le_rfl).mp ⟨f, h⟩ c c.isLt⟩
  · rintro ⟨hf, hdist⟩
    rw [← hf.mul_eq]
    apply Mat.qr_mul hf.orthonormal hf.below
    intro c
    rw [← hf.distanceBefore]
    exact hdist c

theorem Factors.det_ne_zero {A : Mat ℝ n n} {f : QR ℝ n n} (hf : f.Factors A) :
    A.toMatrix.det ≠ 0 := by
  have hq : f.q.toMatrix.det ≠ 0 := by
    have hdet := congrArg Matrix.det (congrArg Mat.toMatrix hf.orthonormal)
    rw [Mat.toMatrix_mul, Matrix.det_mul, Mat.toMatrix_identity, Matrix.det_one] at hdet
    exact right_ne_zero_of_mul (hdet ▸ one_ne_zero)
  have hr : f.r.toMatrix.det ≠ 0 := by
    have htri : f.r.toMatrix.BlockTriangular id := fun a b hab => hf.below a b hab
    rw [Matrix.det_of_isUpperTriangular htri, Finset.prod_ne_zero_iff]
    exact fun c _ => (hf.positive c).ne'
  rw [← hf.mul_eq, Mat.toMatrix_mul, Matrix.det_mul]
  exact mul_ne_zero hq hr

end QR

namespace DenseMatrix

theorem qr_eq_error_iff {α : Type} [RootScalar α] {A : DenseMatrix α} {e : Error} :
    A.qr = .error e ↔ ∃ c : Fin A.width, e = .rankDeficient c ∧ A.entries.qr = .error c := by
  unfold qr
  cases A.entries.qr with
  | error c => simp [Except.mapError, eq_comm]
  | ok f => simp [Except.mapError]

/-- The column that is refused is the first one whose distance from the span of the columns before
it is below the tolerance. If there is none, the orthogonal factors are found, and they are the only
ones with a positive diagonal. A matrix with more columns than rows is refused, and so is the
eigenvalue iteration of a singular one. -/
theorem qr_iff_distances (A : DenseMatrix ℝ) :
    (∀ c, A.qr = .error (.rankDeficient c) ↔
      IsLeast {c | ∃ h : c < A.width, A.entries.distanceBefore ⟨c, h⟩ < 1 / 10 ^ 10} c) ∧
    (∀ e, A.qr = .error e → ∃ c < A.width, e = .rankDeficient c) ∧
    ((∀ c, 1 / 10 ^ 10 ≤ A.entries.distanceBefore c) →
      ∃ f, A.qr = .ok f ∧ ∀ g, g.Factors A.entries ↔ g = f) ∧
    (A.height < A.width → ∃ c ≤ A.height, A.qr = .error (.rankDeficient c)) ∧
    ∀ S, A.toSquare = .ok S → S.toMatrix.det = 0 →
      ∀ options : IterationOptions ℝ, 1 ≤ options.maxSteps →
        ∃ c, (A.eigenvalues options).result = .error (.rankDeficient c) := by
  refine ⟨?_, ?_, ?_, ?_, ?_⟩
  · intro c
    rw [qr_eq_error_iff]
    constructor
    · rintro ⟨k, hk, hqr⟩
      obtain rfl : c = k := by simpa using hk
      obtain ⟨hshort, hbefore⟩ := QR.qr_eq_error_iff.mp hqr
      refine ⟨⟨k.isLt, hshort⟩, ?_⟩
      rintro l ⟨hl, hlshort⟩
      exact not_lt.mp fun hlt => (hbefore ⟨l, hl⟩ hlt).not_gt hlshort
    · rintro ⟨⟨hc, hshort⟩, hleast⟩
      refine ⟨⟨c, hc⟩, rfl, QR.qr_eq_error_iff.mpr ⟨hshort, ?_⟩⟩
      exact fun k hk => not_lt.mp fun hk' => (hleast ⟨k.isLt, hk'⟩).not_gt hk
  · intro e he
    obtain ⟨c, rfl, _⟩ := qr_eq_error_iff.mp he
    exact ⟨c, c.isLt, rfl⟩
  · intro hdist
    obtain ⟨f, hqr⟩ : ∃ f, A.entries.qr = .ok f :=
      (QR.exists_upTo_iff le_rfl).mpr fun c _ => hdist c
    refine ⟨f, qr_eq_ok_iff.mpr hqr, fun g => ?_⟩
    have hg : A.entries.qr = .ok g ↔ g = f := by rw [hqr, Except.ok.injEq, eq_comm]
    rw [← hg, QR.qr_eq_ok_iff_factors, and_iff_left hdist]
  · intro hwide
    obtain ⟨c, hc, hqr⟩ := QR.exists_qr_error_of_wide (A := A.entries) hwide
    exact ⟨c, hc, qr_eq_error_iff.mpr ⟨c, rfl, hqr⟩⟩
  · intro S hS hdet options hsteps
    cases hqr : S.qr with
    | error c =>
      rw [eigenvalues_of_toSquare hS (Mat.eigenvalues_of_qr_error hqr hsteps)]
      exact ⟨c, rfl⟩
    | ok f => exact absurd hdet (QR.qr_eq_ok_iff_factors.mp hqr).1.det_ne_zero

/-- Both columns leave a rest of length one. -/
noncomputable def skewed : Mat ℝ 3 2 := .ofFn ![![0, -1], ![0, 0], ![1, -1]]

noncomputable def skewedFactors : QR ℝ 3 2 :=
  ⟨.ofFn ![![0, -1], ![0, 0], ![1, 0]], .ofFn ![![1, -1], ![0, 1]]⟩

theorem skewedFactors_factors : skewedFactors.Factors skewed := by
  refine ⟨?_, ?_, ?_, ?_⟩
  · ext i j
    rw [Mat.mul_entry]
    fin_cases i <;> fin_cases j <;> simp [skewedFactors, Fin.sum_univ_succ]
  · intro r c hcr
    fin_cases r <;> fin_cases c <;> simp_all [skewedFactors]
  · intro c
    fin_cases c <;> simp [skewedFactors]
  · ext i j
    rw [Mat.mul_entry]
    fin_cases i <;> fin_cases j <;> simp [skewedFactors, skewed, Fin.sum_univ_succ]

noncomputable def repeated : Mat ℝ 2 2 := .ofFn ![![1, 1], ![0, 0]]

theorem distanceBefore_repeated :
    repeated.distanceBefore 0 = 1 ∧ repeated.distanceBefore 1 = 0 := by
  constructor
  · rw [QR.distanceBefore_zero]
    apply Vec.norm_eq_of_dot zero_le_one
    simp [Vec.dot_eq, repeated]
  · apply Metric.infDist_zero_of_mem
    have hsame : repeated.col 1 = repeated.col 0 := by
      ext p
      fin_cases p <;> simp [repeated]
    rw [hsame]
    exact repeated.col_mem_spanBefore (by decide)

theorem qr_skewed_repeated :
    let A : DenseMatrix ℝ := ⟨3, 2, Nat.succ_pos 2, Nat.two_pos, skewed⟩
    let W : DenseMatrix ℝ := ⟨2, 3, Nat.two_pos, Nat.succ_pos 2, skewed.transpose⟩
    let P : DenseMatrix ℝ := ⟨2, 2, Nat.two_pos, Nat.two_pos, repeated⟩
    (A.qr = .ok skewedFactors ∧ ∀ g, g.Factors skewed ↔ g = skewedFactors) ∧
    (∃ c ≤ 2, W.qr = .error (.rankDeficient c)) ∧
    P.qr = .error (.rankDeficient 1) ∧
    ∃ c, (P.eigenvalues .standard).result = .error (.rankDeficient c) := by
  intro A W P
  obtain ⟨_, _, hok, _, _⟩ := qr_iff_distances A
  obtain ⟨_, _, _, hwide, _⟩ := qr_iff_distances W
  obtain ⟨herror, _, _, _, hsingular⟩ := qr_iff_distances P
  have hdist (c : Fin 2) : 1 / 10 ^ 10 ≤ skewed.distanceBefore c := by
    rw [skewedFactors_factors.distanceBefore]
    fin_cases c <;> norm_num [skewedFactors]
  obtain ⟨f, hf, hunique⟩ := hok hdist
  obtain rfl : skewedFactors = f := (hunique _).mp skewedFactors_factors
  obtain ⟨hzero, hone⟩ := distanceBefore_repeated
  have hleast : IsLeast {c | ∃ h : c < 2, repeated.distanceBefore ⟨c, h⟩ < 1 / 10 ^ 10} 1 := by
    refine ⟨⟨by decide, lt_of_eq_of_lt hone (by norm_num)⟩, ?_⟩
    rintro c ⟨hc, hshort⟩
    by_contra hlt
    obtain rfl : c = 0 := by omega
    exact absurd (lt_of_eq_of_lt hzero.symm hshort) (by norm_num)
  have hdet : repeated.toMatrix.det = 0 := by simp [Matrix.det_fin_two, repeated]
  exact ⟨⟨hf, hunique⟩, hwide (by decide), (herror 1).mpr hleast,
    hsingular repeated (toSquare_mk _ _ _) hdet .standard (by decide)⟩

end DenseMatrix

end DenseLinear
