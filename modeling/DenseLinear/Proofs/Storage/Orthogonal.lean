import DenseLinear.Dense.Spectrum
import DenseLinear.Proofs.Storage.Build
import DenseLinear.Storage.Orthogonal

/-!
# Orthogonal factors in storage

The vectors kept so far are the columns of the first factor before the step. In the loop over them,
the second factor is new in the rows that the loop has passed. What the columns not yet reached hold
in it is zero, and remains so below the diagonal.
-/

namespace DenseLinear

variable {α : Type} [RootScalar α]

namespace Mat

variable {m n : Nat}

/-- The first `k` columns as vectors. -/
def columnVectors (A : Mat α m n) (k : Nat) : Array (Array α) :=
  (Array.ofFn fun j => (A.col j).toArray).extract 0 k

omit [RootScalar α]

theorem size_columnVectors (A : Mat α m n) {k : Nat} (h : k ≤ n) :
    (A.columnVectors k).size = k := by
  simp [columnVectors, h]

theorem fetch_columnVectors (A : Mat α m n) {k : Nat} (h : k ≤ n) {j : Fin n} (hj : j.val < k) :
    fetch (A.columnVectors k) j = .ok (A.col j).toArray := by
  rw [fetch, dif_pos (by rwa [size_columnVectors A h])]
  simp [columnVectors]

theorem columnVectors_congr {A B : Mat α m n} {k : Nat} (h : k ≤ n)
    (hcol : ∀ j : Fin n, j.val < k → A.col j = B.col j) : A.columnVectors k = B.columnVectors k := by
  apply Array.ext
  · rw [size_columnVectors A h, size_columnVectors B h]
  · intro j hj _
    rw [size_columnVectors A h] at hj
    simp [columnVectors, hcol ⟨j, by omega⟩ hj]

theorem columnVectors_succ (A : Mat α m n) (i : Fin n) :
    A.columnVectors (i + 1) = (A.columnVectors i).push (A.col i).toArray := by
  rw [columnVectors, Array.extract_succ_right (Nat.succ_pos _) (by simp), Array.getElem_ofFn]
  rfl

theorem columnVectors_self (A : Mat α m n) :
    A.columnVectors n = Array.ofFn fun j => (A.col j).toArray := by
  simp [columnVectors]

end Mat

theorem Vec.map_toArray {β γ : Type} {n : Nat} (f : β → γ) (x : Vec β n) :
    x.toArray.map f = (x.map f).toArray := by
  rw [toArray_eq_ofFn, map, toArray_ofFn, Array.map_ofFn]
  rfl

namespace QR

variable {m n : Nat}

/-- Takes the multiples `coeff j` of the first `k` columns from `v`. -/
def remainderUpTo (q : Mat α m n) (coeff : Vec α n) (v : Vec α m) (k : Nat) (h : k ≤ n) : Vec α m :=
  afterSteps (fun j v => Vec.addScaled (-coeff j) (q.col j) v) v k h

theorem remainder_eq_remainderUpTo (q : Mat α m n) (i : Fin n) (coeff : Vec α n) (v : Vec α m) :
    remainder q i coeff v = remainderUpTo q coeff v i i.isLt.le := by
  rw [remainderUpTo, afterSteps_eq_foldl]
  rfl

/-- What the loop over the columns before `i` leaves of `a`, and its entries in the second
factor. -/
theorem forRange_orthogonalStep (hm : 0 < m) (q : Mat α m n) (i : Fin n) (a : Vec α m)
    {R S : Mat α n n} (hnew : ∀ j < i, S j i = (q.col j).dot a)
    (hold : ∀ j c, c ≠ i ∨ i ≤ j → S j c = R j c) :
    forRange 0 i (Stored.orthogonalStep (q.columnVectors i) a.toArray i) (a.toArray, R.stored) =
      .ok ((remainder q i (coefficients q i a) a).toArray, S.stored) := by
  have hfirst : R.blendRows S 0 = R := by
    ext j c
    exact Mat.blend_of_le (Nat.zero_le _)
  have hlast : R.blendRows S i = S := by
    ext j c
    rcases lt_or_ge j i with hj | hj
    · exact Mat.blend_of_lt hj
    · rw [Mat.blend_of_le hj, hold j c (.inr hj)]
  have hloop : forRange 0 i (Stored.orthogonalStep (q.columnVectors i) a.toArray i)
      (a.toArray, (R.blendRows S 0).stored) =
      .ok ((remainderUpTo q (coefficients q i a) a i i.isLt.le).toArray,
        (R.blendRows S i).stored) := by
    apply forRange_eq_ok (fun k hk =>
      ((remainderUpTo q (coefficients q i a) a k (hk.trans i.isLt.le)).toArray,
        (R.blendRows S k).stored)) (Nat.zero_le i.val)
    intro k _
    have hk : before i k < i := before_lt i k
    have hfetch : fetch (q.columnVectors i) k = .ok (q.col (before i k)).toArray :=
      q.fetch_columnVectors i.isLt.le hk
    have hset (x : α) : (R.blendRows S k).stored.setEntry k i x =
        .ok ((R.blendRows S k).setEntry (before i k) i x).stored :=
      Mat.setEntry_stored _ (before i k) i x
    have hblend : (R.blendRows S k).setEntry (before i k) i ((q.col (before i k)).dot a) =
        R.blendRows S (k + 1) :=
      Mat.setEntry_blendRows _ _ (hnew _ hk) fun c hc => (hold _ c (.inl hc)).symm
    have hcoeff : (coefficients q i a) (before i k) = (q.col (before i k)).dot a := by
      rw [coefficients, Vec.entry_ofFn, if_pos hk]
    rw [Stored.orthogonalStep, hfetch, Checked.ok_bind, DenseVector.dot_toArray hm,
      Checked.lift_error_ok, Checked.ok_bind, hset, Checked.ok_bind,
      DenseVector.addScaled_toArray hm, hblend, ← hcoeff]
    rfl
  rw [hfirst, hlast] at hloop
  rw [remainder_eq_remainderUpTo, hloop]

theorem qrStep_stored (hm : 0 < m) (A : Mat α m n) (i : Fin n) {f : QR α m n}
    (hr : ∀ j, f.r j i = 0) :
    Stored.qrStep (A.columnVectors n) i (f.q.columnVectors i, f.r.stored) =
      ((step A i f).map fun g => (g.q.columnVectors (i + 1), g.r.stored)).mapError
        fun i : Fin n => .refused (.rankDeficient i) := by
  have hloop := forRange_orthogonalStep hm f.q i (A.col i) (R := f.r)
    (S := f.r.setCol i (coefficients f.q i (A.col i)).entry) ?_ ?_
  · rw [Stored.qrStep, A.fetch_columnVectors le_rfl i.isLt, Checked.ok_bind,
      f.q.size_columnVectors i.isLt.le, hloop, Checked.ok_bind, DenseVector.norm_toArray hm,
      Checked.lift_error_ok, Checked.ok_bind, step]
    split_ifs with hlength
    · rfl
    · have hcolumns (g : Fin m → α) : (f.q.setCol i g).columnVectors (i + 1) =
          (f.q.columnVectors i).push (Vec.ofFn g).toArray := by
        rw [Mat.columnVectors_succ, Mat.columnVectors_congr i.isLt.le (B := f.q)]
        · congr 2
          ext r
          simp
        · intro j hj
          ext r
          rw [Mat.col_apply, Mat.col_apply, Mat.setCol_apply, if_neg (Fin.ne_of_lt hj)]
      have hentry (x : α) : (f.r.setCol i (coefficients f.q i (A.col i)).entry).setEntry i i x =
          f.r.setCol i fun j =>
            if j = i then x else (coefficients f.q i (A.col i)) j := by
        ext j c
        simp only [Mat.setEntry_apply, Mat.setCol_apply]
        split_ifs <;> simp_all
      rw [Mat.setEntry_stored, Checked.ok_bind, hentry, Vec.map_toArray]
      simp only [Except.map, Except.mapError, hcolumns]
      rfl
  · intro j hj
    rw [Mat.setCol_apply, if_pos rfl, coefficients, Vec.entry_ofFn, if_pos hj]
  · intro j c hjc
    rw [Mat.setCol_apply]
    split_ifs with hc
    · rcases hjc with hne | hle
      · exact absurd hc hne
      · rw [coefficients, Vec.entry_ofFn, if_neg hle.not_gt, hc, hr]
    · rfl

/-- Nothing has been put into the columns that are still to come. -/
theorem upTo_r_eq_zero {A : Mat α m n} {k : Nat} {h : k ≤ n} {f : QR α m n}
    (e : upTo A k h = .ok f) : ∀ j c : Fin n, k ≤ c → f.r j c = 0 := by
  refine tryAfterSteps_induction
    (fun k (f : QR α m n) => ∀ j c : Fin n, k ≤ c → f.r j c = 0) ?_ ?_ e
  · intro j c _
    exact Mat.zero_apply j c
  · intro i f g hf hg j c hc
    have hne : c ≠ i := by
      rintro rfl
      omega
    rw [step] at hg
    split_ifs at hg
    cases hg
    rw [Mat.setCol_apply, if_neg hne]
    exact hf j c (Nat.le_of_succ_le hc)

end QR

namespace Mat

variable {m n : Nat}

/-- The loop over the columns, once there is room for the second factor. -/
theorem forRange_qrStep (hm : 0 < m) (A : Mat α m n) :
    forRange 0 n (Stored.qrStep (A.columnVectors n)) (#[], (zero n n).stored) =
      (A.qr.map fun f => (f.q.columnVectors n, f.r.stored)).mapError
        fun i : Fin n => .refused (.rankDeficient i) := by
  have hrun := forRange_eq_tryAfterSteps (⟨.zero m n, .zero n n⟩ : QR α m n)
    (fun k f => (f.q.columnVectors k, f.r.stored)) (fun i : Fin n => Stop.refused (.rankDeficient i))
    (fun i f hf => QR.qrStep_stored hm A i fun j => QR.upTo_r_eq_zero hf j i le_rfl) n le_rfl
  have hstart : (zero m n : Mat α m n).columnVectors 0 = #[] := by simp [columnVectors]
  rwa [hstart] at hrun

theorem qr_stored [SizeArithmetic] (hm : 0 < m) (hn : 0 < n) (hq : Fits m n) (hr : Fits n n)
    (A : Mat α m n) :
    A.stored.qr = (A.qr.map fun f => (f.q.stored, f.r.stored)).mapError
      fun i : Fin n => .refused (.rankDeficient i) := by
  rw [Stored.qr, columns_stored, Checked.ok_bind, ← columnVectors_self,
    A.size_columnVectors le_rfl, width_stored, zeros_stored hn hn hr, Checked.ok_bind,
    A.forRange_qrStep hm]
  cases A.qr with
  | error e => rfl
  | ok f =>
    simp only [Except.map, Except.mapError, Checked.ok_bind, columnVectors_self,
      ofColumns_stored hm hn hq]
    exact if_pos ⟨rfl, rfl⟩

end Mat

end DenseLinear
