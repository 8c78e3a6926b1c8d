import DenseLinear.Proofs.Orthogonal
import DenseLinear.Spectrum.Iteration

/-!
# Uniqueness of the orthogonal factors

A matrix with orthonormal columns times an upper triangular one whose diagonal is at least the
tolerance is factored into just these two again; if the diagonal falls short somewhere, the matrix is
refused there. So the iteration leaves a matrix with orthonormal columns alone, and a run from there
settles at once, whether the off-diagonal entries are small or not.
-/

namespace DenseLinear

theorem Mat.transpose_mul_entry {K : Type} [Field K] [LinearOrder K] {m n l : Nat} (A : Mat K m n)
    (B : Mat K m l) (i : Fin n) (j : Fin l) :
    (A.transpose.mul B) i j = (A.col i).dot (B.col j) := by
  rw [mul_entry, Vec.dot_eq]
  simp only [transpose_apply, col_apply]

namespace QR

variable {m n : Nat} {q : Mat ℝ m n} {r : Mat ℝ n n}

/-- The first `k` columns of given factors, with zeros for the others. -/
noncomputable def firstColumns (q : Mat ℝ m n) (r : Mat ℝ n n) (k : Nat) : QR ℝ m n :=
  ⟨.ofFn fun p j => if j.val < k then q p j else 0, .ofFn fun p j => if j.val < k then r p j else 0⟩

theorem firstColumns_zero : firstColumns q r 0 = ⟨.zero m n, .zero n n⟩ := by
  simp [firstColumns, Mat.zero]

theorem firstColumns_self : firstColumns q r n = ⟨q, r⟩ := by
  simp [firstColumns, Mat.ofFn_entry]

theorem setCol_firstColumns {α : Type} [Zero α] (B : Mat α m n) (i : Fin n) :
    (Mat.ofFn fun p (j : Fin n) => if j.val < i then B p j else 0).setCol i (fun p => B p i) =
      .ofFn fun p j => if j.val < i + 1 then B p j else 0 := by
  ext p j
  simp only [Mat.setCol_apply, Mat.entry_ofFn]
  rcases lt_trichotomy j i with h | rfl | h
  · rw [if_neg h.ne, if_pos (Fin.lt_def.mp h), if_pos (Nat.lt_succ_of_lt h)]
  · rw [if_pos rfl, if_pos (Nat.lt_succ_self _)]
  · rw [if_neg h.ne', if_neg (Nat.not_lt_of_gt h), if_neg (Nat.not_lt_of_ge h)]

variable (hq : q.transpose.mul q = .identity n) (hbelow : ∀ a b, b < a → r a b = 0)

include hq in
theorem dot_col (a b : Fin n) : (q.col a).dot (q.col b) = if a = b then 1 else 0 := by
  rw [← Mat.transpose_mul_entry, hq, Mat.identity_apply]

include hq in
theorem coefficients_firstColumns (i j : Fin n) :
    (coefficients (firstColumns q r i).q i ((q.mul r).col i)) j = if j < i then r j i else 0 := by
  rw [coefficients_apply]
  split_ifs with hj
  · have hcol : (firstColumns q r i).q.col j = q.col j := by
      ext p
      simp [firstColumns, hj.not_ge]
    rw [hcol, ← Mat.transpose_mul_entry, ← Mat.mul_mul, hq, Mat.identity_mul]
  · rfl

include hq hbelow in
theorem rest_firstColumns (i : Fin n) (p : Fin m) :
    (rest (q.mul r) (firstColumns q r i).q i) p = q p i * r i i := by
  have hterm (k : Fin n) :
      q p k * r k i - (coefficients (firstColumns q r i).q i ((q.mul r).col i)) k *
        (firstColumns q r i).q p k = if i = k then q p i * r i i else 0 := by
    rw [coefficients_firstColumns hq]
    rcases lt_trichotomy k i with h | rfl | h
    · simp [firstColumns, h, h.ne', mul_comm]
    · simp
    · simp [hbelow k i h, h.not_gt, h.ne]
  rw [rest, remainder_eq _ fun k => coefficients_eq_zero _ _, Mat.col_apply, Mat.mul_entry,
    ← Finset.sum_sub_distrib, Finset.sum_congr rfl fun k _ => hterm k, Finset.sum_ite_eq,
    if_pos (Finset.mem_univ i)]

include hq hbelow in
theorem norm_rest_firstColumns {i : Fin n} (hi : 0 ≤ r i i) :
    (rest (q.mul r) (firstColumns q r i).q i).norm = r i i := by
  apply Vec.norm_eq_of_dot hi
  have hunit := dot_col hq i i
  rw [if_pos rfl, Vec.dot_eq] at hunit
  rw [Vec.dot_eq, ← one_mul (r i i * r i i), ← hunit, Finset.sum_mul]
  apply Finset.sum_congr rfl
  intro p _
  rw [rest_firstColumns hq hbelow, Mat.col_apply]
  ring

include hq hbelow in
theorem step_firstColumns {i : Fin n} (hi : 1 / 10 ^ 10 ≤ r i i) :
    step (q.mul r) i (firstColumns q r i) = .ok (firstColumns q r (i + 1)) := by
  have hpos : 0 < r i i := lt_of_lt_of_le tolerance_pos hi
  rw [step_eq, norm_rest_firstColumns hq hbelow hpos.le, if_neg (not_lt.mpr hi)]
  have hqcol (p : Fin m) :
      (rest (q.mul r) (firstColumns q r i).q i) p / r i i = q p i := by
    rw [rest_firstColumns hq hbelow, mul_div_cancel_right₀ _ hpos.ne']
  have hrcol (j : Fin n) : (if j = i then r i i else
      (coefficients (firstColumns q r i).q i ((q.mul r).col i)) j) = r j i := by
    rw [coefficients_firstColumns hq]
    rcases lt_trichotomy j i with h | rfl | h
    · rw [if_neg h.ne, if_pos h]
    · rw [if_pos rfl]
    · rw [if_neg h.ne', if_neg h.not_gt, hbelow j i h]
  simp only [hqcol, hrcol]
  rw [firstColumns, firstColumns, setCol_firstColumns, setCol_firstColumns]

include hq hbelow in
theorem step_firstColumns_eq_error {i : Fin n} (hpos : 0 ≤ r i i) (hi : r i i < 1 / 10 ^ 10) :
    step (q.mul r) i (firstColumns q r i) = .error i := by
  rw [step_eq, norm_rest_firstColumns hq hbelow hpos, if_pos hi]

include hq hbelow in
theorem upTo_firstColumns (k : Nat) (h : k ≤ n)
    (hdiag : ∀ i : Fin n, i.val < k → 1 / 10 ^ 10 ≤ r i i) :
    upTo (q.mul r) k h = .ok (firstColumns q r k) := by
  induction k with
  | zero => exact congrArg Except.ok firstColumns_zero.symm
  | succ k ih =>
    have hprev := ih (Nat.le_of_succ_le h) fun i hi => hdiag i (Nat.lt_succ_of_lt hi)
    have hstep := step_firstColumns hq hbelow (hdiag ⟨k, h⟩ (Nat.lt_succ_self k))
    exact tryAfterSteps_succ_eq_ok.mpr ⟨_, hprev, hstep⟩

end QR

namespace Mat

variable {m n : Nat} {A : Mat ℝ n n}

/-- A product of orthogonal factors is factored into them. -/
theorem qr_mul {q : Mat ℝ m n} {r : Mat ℝ n n} (hq : q.transpose.mul q = identity n)
    (hbelow : ∀ a b, b < a → r a b = 0) (hdiag : ∀ i, 1 / 10 ^ 10 ≤ r i i) :
    (q.mul r).qr = .ok ⟨q, r⟩ := by
  rw [qr, QR.upTo_firstColumns hq hbelow n le_rfl fun i _ => hdiag i, QR.firstColumns_self]

/-- The first short column stops the factorization. -/
theorem qr_mul_eq_error {q : Mat ℝ m n} {r : Mat ℝ n n} (hq : q.transpose.mul q = identity n)
    (hbelow : ∀ a b, b < a → r a b = 0) {c : Fin n} (hbefore : ∀ i < c, 1 / 10 ^ 10 ≤ r i i)
    (hpos : 0 ≤ r c c) (hc : r c c < 1 / 10 ^ 10) : (q.mul r).qr = .error c :=
  tryAfterSteps_error_of_step (QR.upTo_firstColumns hq hbelow c c.isLt.le hbefore)
    (QR.step_firstColumns_eq_error hq hbelow hpos hc) c.isLt

theorem swapFactors_mul {q r : Mat ℝ n n} (hq : q.transpose.mul q = identity n)
    (hbelow : ∀ a b, b < a → r a b = 0) (hdiag : ∀ i, 1 / 10 ^ 10 ≤ r i i) :
    (q.mul r).swapFactors = .ok (r.mul q) := by
  rw [swapFactors, qr_mul hq hbelow hdiag]
  rfl

theorem transpose_identity {α : Type} [Zero α] [One α] :
    (identity n : Mat α n n).transpose = identity n := by
  ext i j
  rw [transpose_apply, identity_apply, identity_apply]
  exact if_congr eq_comm rfl rfl

theorem swapFactors_of_orthonormal (hA : A.transpose.mul A = identity n) :
    A.swapFactors = .ok A := by
  have h := swapFactors_mul (r := identity n) hA
    (fun a b hab => by rw [identity_apply, if_neg hab.ne'])
    (fun i => by rw [identity_apply, if_pos rfl]; norm_num)
  rwa [identity_mul, mul_identity] at h

theorem iterateFactors_of_settled {α : Type} [RootScalar α] {A B : Mat α n n} {tolerance : α}
    (hAB : A.swapFactors = .ok B) (h : DiagonalSettled tolerance A B) (budget done : Nat) :
    A.iterateFactors tolerance (budget + 1) done = .ok (.settled (done + 1) B) := by
  simp only [iterateFactors, hAB, if_pos h]

theorem iterateFactors_of_fixed (hA : A.swapFactors = .ok A) {tolerance : ℝ} (h : 0 < tolerance)
    (budget done : Nat) :
    A.iterateFactors tolerance (budget + 1) done = .ok (.settled (done + 1) A) := by
  apply iterateFactors_of_settled hA
  intro i
  change |A i i - A i i| < tolerance
  rwa [sub_self, abs_zero]

end Mat

end DenseLinear
