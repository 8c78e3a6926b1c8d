import DenseLinear.Dense.Access
import DenseLinear.Dense.Product
import DenseLinear.Dense.Spectrum
import DenseLinear.Proofs.Matrix

/-!
# Orthogonal factors

Over the real numbers, each step of the orthonormalization takes from a column its components along
the columns before. Since these are orthonormal, what is left is orthogonal to each of them. Its
length is divided out and kept on the diagonal, so the new columns add up to the old one again.
-/

namespace DenseLinear

/-- The real numbers with their square root. -/
noncomputable instance instRootScalarReal : RootScalar ℝ where
  toScalar := instScalarExact
  sqrt := Real.sqrt

namespace Vec

variable {K : Type} [Field K] [LinearOrder K] {m n : Nat}

theorem dot_eq (x y : Vec K n) : x.dot y = ∑ i, x i * y i := sum_eq _

theorem dot_comm (x y : Vec K n) : x.dot y = y.dot x := by
  simp only [dot_eq, mul_comm]

theorem dot_div (x v : Vec K n) (d : K) : x.dot (.ofFn fun i => v i / d) = x.dot v / d := by
  simp only [dot_eq, entry_ofFn, ← mul_div_assoc, Finset.sum_div]

theorem norm_mul_norm (v : Vec ℝ n) : v.norm * v.norm = v.dot v := by
  apply Real.mul_self_sqrt
  rw [dot_eq]
  exact Finset.sum_nonneg fun i _ => mul_self_nonneg (v i)

theorem norm_eq_of_dot {v : Vec ℝ n} {d : ℝ} (hd : 0 ≤ d) (h : v.dot v = d * d) : v.norm = d := by
  rw [← norm_mul_norm] at h
  exact (mul_self_inj (Real.sqrt_nonneg _) hd).mp h

end Vec

theorem Mat.col_setCol {α : Type} {m n : Nat} (A : Mat α m n) (i j : Fin n) (f : Fin m → α) :
    (A.setCol i f).col j = if j = i then .ofFn f else A.col j := by
  ext r
  by_cases h : j = i <;> simp [h]

namespace QR

theorem remainder_apply {α : Type} [RootScalar α] {m n : Nat} (q : Mat α m n) (i : Fin n)
    (coeff : Vec α n) (v : Vec α m) (p : Fin m) :
    (remainder q i coeff v) p =
      sumFrom (v p) fun k : Fin i => -coeff (before i k) * q p (before i k) := by
  have h (l : Nat) (j : Fin l → Fin n) :
      (Fin.foldl l (fun w k => Vec.addScaled (-coeff (j k)) (q.col (j k)) w) v) p =
        sumFrom (v p) fun k => -coeff (j k) * q p (j k) := by
    induction l with
    | zero => simp [sumFrom]
    | succ l ih =>
      simp only [sumFrom, Fin.foldl_succ_last] at ih ⊢
      rw [Vec.addScaled_apply, ih fun k => j k.castSucc, Mat.col_apply]
  exact h i (before i)

variable {m n : Nat} {q A : Mat ℝ m n} {f g : QR ℝ m n} {i : Fin n}

theorem remainder_eq (q : Mat ℝ m n) {coeff : Vec ℝ n} (hcoeff : ∀ k, i ≤ k → coeff k = 0)
    (v : Vec ℝ m) (p : Fin m) :
    (remainder q i coeff v) p = v p - ∑ k, coeff k * q p k := by
  have hsum : ∑ k, coeff k * q p k = sumBefore i fun k => coeff k * q p k :=
    (sumBefore_eq_sum fun k hk => by rw [hcoeff k hk, zero_mul]).symm
  rw [remainder_apply, sumFrom_eq, hsum, sumBefore, sum_eq, sub_eq_add_neg,
    ← Finset.sum_neg_distrib]
  simp only [neg_mul]

theorem dot_remainder (q : Mat ℝ m n) {coeff : Vec ℝ n} (hcoeff : ∀ k, i ≤ k → coeff k = 0)
    (x v : Vec ℝ m) :
    x.dot (remainder q i coeff v) = x.dot v - ∑ k, coeff k * x.dot (q.col k) := by
  simp only [Vec.dot_eq, remainder_eq q hcoeff, Mat.col_apply, mul_sub, Finset.sum_sub_distrib,
    Finset.mul_sum]
  rw [Finset.sum_comm]
  simp only [mul_left_comm]

theorem coefficients_apply (q : Mat ℝ m n) (i j : Fin n) (a : Vec ℝ m) :
    (coefficients q i a) j = if j < i then (q.col j).dot a else 0 := by
  simp [coefficients]

theorem coefficients_eq_zero (q : Mat ℝ m n) (a : Vec ℝ m) {k : Fin n} (hk : i ≤ k) :
    (coefficients q i a) k = 0 := by
  rw [coefficients_apply, if_neg (not_lt.mpr hk)]

/-- What is left of column `i` of `A` without its components along the columns of `q` before. -/
noncomputable def rest (A q : Mat ℝ m n) (i : Fin n) : Vec ℝ m :=
  remainder q i (coefficients q i (A.col i)) (A.col i)

theorem step_eq (A : Mat ℝ m n) (i : Fin n) (f : QR ℝ m n) :
    step A i f =
      if (rest A f.q i).norm < 1 / 10 ^ 10 then .error i
      else .ok
        ⟨f.q.setCol i fun p => (rest A f.q i) p / (rest A f.q i).norm,
          f.r.setCol i fun j =>
            if j = i then (rest A f.q i).norm else (coefficients f.q i (A.col i)) j⟩ :=
  rfl

theorem step_eq_ok (h : step A i f = .ok g) :
    1 / 10 ^ 10 ≤ (rest A f.q i).norm ∧
      g.q = f.q.setCol i (fun p => (rest A f.q i) p / (rest A f.q i).norm) ∧
      g.r = f.r.setCol i fun j =>
        if j = i then (rest A f.q i).norm else (coefficients f.q i (A.col i)) j := by
  rw [step_eq] at h
  split_ifs at h with hshort
  cases h
  exact ⟨not_lt.mp hshort, rfl, rfl⟩

theorem norm_rest_ne_zero (h : step A i f = .ok g) : (rest A f.q i).norm ≠ 0 :=
  (lt_of_lt_of_le tolerance_pos (step_eq_ok h).1).ne'

/-- The columns before `k` are orthonormal. -/
def OrthonormalUpTo (k : Nat) (q : Mat ℝ m n) : Prop :=
  ∀ a b : Fin n, a.val < k → b.val < k → (q.col a).dot (q.col b) = if a = b then 1 else 0

/-- The coefficients were taken from the column as it was; that is enough, as the columns before
are orthogonal to each other. -/
theorem OrthonormalUpTo.dot_rest (hq : OrthonormalUpTo i q) {j : Fin n} (hj : j < i) :
    (q.col j).dot (rest A q i) = 0 := by
  have hterm (k : Fin n) : (coefficients q i (A.col i)) k * (q.col j).dot (q.col k) =
      if j = k then (q.col j).dot (A.col i) else 0 := by
    rw [coefficients_apply]
    rcases eq_or_ne j k with rfl | hjk
    · rw [if_pos hj, hq j j hj hj, if_pos rfl, if_pos rfl, mul_one]
    · rw [if_neg hjk]
      split_ifs with hk
      · rw [hq j k hj hk, if_neg hjk, mul_zero]
      · exact zero_mul _
  rw [rest, dot_remainder q fun k => coefficients_eq_zero q _,
    Finset.sum_congr rfl fun k _ => hterm k, Finset.sum_ite_eq, if_pos (Finset.mem_univ j), sub_self]

theorem OrthonormalUpTo.step (hf : OrthonormalUpTo i f.q) (h : QR.step A i f = .ok g) :
    OrthonormalUpTo (i + 1) g.q := by
  obtain ⟨_, hq, _⟩ := step_eq_ok h
  have hpos := norm_rest_ne_zero h
  have hkeep (j : Fin n) (hj : j < i) : g.q.col j = f.q.col j := by
    rw [hq, Mat.col_setCol, if_neg hj.ne]
  have hunit : (g.q.col i).dot (g.q.col i) = 1 := by
    rw [hq, Mat.col_setCol, if_pos rfl, Vec.dot_div, Vec.dot_comm, Vec.dot_div, ← Vec.norm_mul_norm,
      mul_div_cancel_right₀ _ hpos, div_self hpos]
  have hnew (j : Fin n) (hj : j < i) : (g.q.col j).dot (g.q.col i) = 0 := by
    rw [hkeep j hj, hq, Mat.col_setCol, if_pos rfl, Vec.dot_div, hf.dot_rest hj, zero_div]
  intro a b ha hb
  rcases lt_or_eq_of_lt_succ ha with ha | rfl
  · rcases lt_or_eq_of_lt_succ hb with hb | rfl
    · rw [hkeep a ha, hkeep b hb, hf a b ha hb]
    · rw [hnew a ha, if_neg ha.ne]
  · rcases lt_or_eq_of_lt_succ hb with hb | rfl
    · rw [Vec.dot_comm, hnew b hb, if_neg hb.ne']
    · rw [hunit, if_pos rfl]

/-- What is known of the factors of `A` after the first `k` columns. -/
structure FactorsUpTo (A : Mat ℝ m n) (k : Nat) (f : QR ℝ m n) : Prop where
  orthonormal : OrthonormalUpTo k f.q
  below : ∀ r c, c < r → f.r r c = 0
  diagonal : ∀ j : Fin n, j.val < k → 1 / 10 ^ 10 ≤ f.r j j
  product : ∀ p (c : Fin n), c.val < k → (f.q.mul f.r) p c = A p c

/-- The new column of the first factor meets a zero of the second in the columns before. -/
theorem FactorsUpTo.product_before (hf : f.FactorsUpTo A i) (h : QR.step A i f = .ok g) (p : Fin m)
    {c : Fin n} (hc : c < i) : (g.q.mul g.r) p c = A p c := by
  obtain ⟨_, hq, hr⟩ := step_eq_ok h
  rw [← hf.product p c hc, Mat.mul_entry, Mat.mul_entry]
  apply Finset.sum_congr rfl
  intro k _
  rw [hq, hr, Mat.setCol_apply, Mat.setCol_apply, if_neg hc.ne]
  split_ifs with hk
  · rw [hk, hf.below i c hc, mul_zero, mul_zero]
  · rfl

/-- The new column of the second factor adds to the rest of column `i` what was taken from it. -/
theorem product_at (h : step A i f = .ok g) (p : Fin m) : (g.q.mul g.r) p i = A p i := by
  obtain ⟨_, hq, hr⟩ := step_eq_ok h
  have hpos := norm_rest_ne_zero h
  have hcoeff (k : Fin n) (hk : i ≤ k) : (coefficients f.q i (A.col i)) k = 0 :=
    coefficients_eq_zero f.q _ hk
  have hterm (k : Fin n) : g.q p k * g.r k i =
      (if i = k then (rest A f.q i) p else 0) + (coefficients f.q i (A.col i)) k * f.q p k := by
    rw [hq, hr, Mat.setCol_apply, Mat.setCol_apply, if_pos rfl]
    rcases eq_or_ne i k with rfl | hik
    · rw [if_pos rfl, if_pos rfl, if_pos rfl, div_mul_cancel₀ _ hpos, hcoeff i le_rfl, zero_mul,
        add_zero]
    · rw [if_neg hik.symm, if_neg hik.symm, if_neg hik, zero_add, mul_comm]
  rw [Mat.mul_entry, Finset.sum_congr rfl fun k _ => hterm k, Finset.sum_add_distrib,
    Finset.sum_ite_eq, if_pos (Finset.mem_univ i), rest, remainder_eq f.q hcoeff, sub_add_cancel,
    Mat.col_apply]

theorem FactorsUpTo.step (hf : f.FactorsUpTo A i) (h : QR.step A i f = .ok g) :
    g.FactorsUpTo A (i + 1) := by
  obtain ⟨hlong, _, hr⟩ := step_eq_ok h
  refine ⟨hf.orthonormal.step h, ?_, ?_, ?_⟩
  · intro r c hcr
    rw [hr, Mat.setCol_apply]
    split_ifs with hc hri
    · exact absurd (hri.trans hc.symm) hcr.ne'
    · exact coefficients_eq_zero f.q _ (hc ▸ hcr.le)
    · exact hf.below r c hcr
  · intro j hj
    rw [hr, Mat.setCol_apply]
    rcases lt_or_eq_of_lt_succ hj with hlt | rfl
    · rw [if_neg hlt.ne]
      exact hf.diagonal j hlt
    · rw [if_pos rfl, if_pos rfl]
      exact hlong
  · intro p c hc
    rcases lt_or_eq_of_lt_succ hc with hlt | rfl
    · exact hf.product_before h p hlt
    · exact product_at h p

theorem upTo_factors {k : Nat} {h : k ≤ n} (e : upTo A k h = .ok f) : f.FactorsUpTo A k := by
  refine tryAfterSteps_induction (fun k f => f.FactorsUpTo A k) ?_ ?_ e
  · refine ⟨?_, ?_, ?_, ?_⟩
    · intro a b ha
      exact absurd ha (Nat.not_lt_zero _)
    · intro r c _
      exact Mat.zero_apply r c
    · intro j hj
      exact absurd hj (Nat.not_lt_zero _)
    · intro p c hc
      exact absurd hc (Nat.not_lt_zero _)
  · intro i f g hf hg
    exact hf.step hg

theorem FactorsUpTo.transpose_mul_self (hf : f.FactorsUpTo A n) :
    f.q.transpose.mul f.q = .identity n := by
  ext a b
  have h := hf.orthonormal a b a.isLt b.isLt
  rw [Vec.dot_eq] at h
  rw [Mat.mul_entry, Mat.identity_apply, ← h]
  simp only [Mat.transpose_apply, Mat.col_apply]

theorem FactorsUpTo.mul_eq (hf : f.FactorsUpTo A n) : f.q.mul f.r = A := by
  ext p c
  exact hf.product p c c.isLt

end QR

namespace DenseMatrix

theorem qr_eq_ok_iff {α : Type} [RootScalar α] {A : DenseMatrix α} {f : QR α A.height A.width} :
    A.qr = .ok f ↔ A.entries.qr = .ok f := by
  unfold qr
  cases A.entries.qr <;> simp [Except.mapError]

/-- The first factor has the size of the matrix and orthonormal columns, the second is upper
triangular with a diagonal of at least the tolerance, and their product is the matrix. -/
theorem qr_orthonormal_factors (A : DenseMatrix ℝ) (f : QR ℝ A.height A.width)
    (h : A.qr = .ok f) :
    (∃ I, identity A.width = .ok I ∧
      (A.withEntries f.q).transpose.mul (A.withEntries f.q) = .ok I) ∧
    (∀ r c, c < r → f.r r c = 0) ∧ (∀ j, 1 / 10 ^ 10 ≤ f.r j j) ∧
    (A.withEntries f.q).mul (A.ofWidth f.r) = .ok A := by
  have hf := QR.upTo_factors (qr_eq_ok_iff.mp h)
  refine ⟨⟨_, identity_mk A.width_pos, ?_⟩, hf.below, fun j => hf.diagonal j j.isLt, ?_⟩
  · simp [mul, transpose, withEntries, hf.transpose_mul_self]
  · simp [mul, withEntries, ofWidth, hf.mul_eq]

/-- Both columns leave a rest of length three. -/
noncomputable def tall : Mat ℝ 3 2 := .ofFn ![![2, 4], ![1, -1], ![2, 1]]

theorem qr_tall :
    let A : DenseMatrix ℝ := ⟨3, 2, Nat.succ_pos 2, Nat.two_pos, tall⟩
    ∃ f : QR ℝ 3 2, A.qr = .ok f ∧
      f.q = .ofFn ![![2 / 3, 2 / 3], ![1 / 3, -2 / 3], ![2 / 3, -1 / 3]] ∧
      f.r = .ofFn ![![3, 3], ![0, 3]] ∧
      (∃ I, identity 2 = .ok I ∧ (A.withEntries f.q).transpose.mul (A.withEntries f.q) = .ok I) ∧
      (A.withEntries f.q).mul (A.ofWidth f.r) = .ok A := by
  intro A
  have hrest₀ : QR.rest tall (.zero 3 2) 0 = .ofFn ![2, 1, 2] := by
    ext p
    rw [QR.rest, QR.remainder_eq _ fun k => QR.coefficients_eq_zero _ _]
    fin_cases p <;> simp [tall]
  have hnorm₀ : (Vec.ofFn ![2, 1, 2] : Vec ℝ 3).norm = 3 := by
    apply Vec.norm_eq_of_dot (by norm_num)
    simp [Vec.dot_eq, Fin.sum_univ_succ]
    norm_num
  have hstep₀ : QR.step tall 0 ⟨.zero 3 2, .zero 2 2⟩ =
      .ok ⟨.ofFn ![![2 / 3, 0], ![1 / 3, 0], ![2 / 3, 0]], .ofFn ![![3, 0], ![0, 0]]⟩ := by
    rw [QR.step_eq, hrest₀, hnorm₀, if_neg (by norm_num)]
    rfl
  have hrest₁ : QR.rest tall (.ofFn ![![2 / 3, 0], ![1 / 3, 0], ![2 / 3, 0]]) 1 =
      .ofFn ![2, -2, -1] := by
    ext p
    rw [QR.rest, QR.remainder_eq _ fun k => QR.coefficients_eq_zero _ _]
    fin_cases p <;> simp [QR.coefficients_apply, tall, Fin.sum_univ_succ, Vec.dot_eq] <;> norm_num
  have hnorm₁ : (Vec.ofFn ![2, -2, -1] : Vec ℝ 3).norm = 3 := by
    apply Vec.norm_eq_of_dot (by norm_num)
    simp [Vec.dot_eq, Fin.sum_univ_succ]
    norm_num
  have hstep₁ : QR.step tall 1
      ⟨.ofFn ![![2 / 3, 0], ![1 / 3, 0], ![2 / 3, 0]], .ofFn ![![3, 0], ![0, 0]]⟩ =
      .ok ⟨.ofFn ![![2 / 3, 2 / 3], ![1 / 3, -2 / 3], ![2 / 3, -1 / 3]],
        .ofFn ![![3, 3], ![0, 3]]⟩ := by
    rw [QR.step_eq, hrest₁, hnorm₁, if_neg (by norm_num)]
    congr 2
    ext p j
    fin_cases p <;> fin_cases j <;>
      simp [QR.coefficients_apply, tall, Vec.dot_eq, Fin.sum_univ_succ]
    norm_num
  have hrun : tall.qr = QR.step tall 0 ⟨.zero 3 2, .zero 2 2⟩ >>= QR.step tall 1 := rfl
  rw [hstep₀] at hrun
  have hqr := qr_eq_ok_iff (A := A).mpr (hrun.trans hstep₁)
  obtain ⟨hQ, _, _, hprod⟩ := qr_orthonormal_factors A _ hqr
  exact ⟨_, hqr, rfl, rfl, hQ, hprod⟩

end DenseMatrix

end DenseLinear
