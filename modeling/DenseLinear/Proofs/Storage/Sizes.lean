import DenseLinear.Proofs.Storage.Faults
import DenseLinear.Proofs.Storage.Orthogonal
import DenseLinear.Storage.Elimination

/-!
# Room for matrices

The loops that fill a new matrix write every entry of it, the last one too, and change neither its
sides nor the length of its array. So an operation that makes a matrix does not come to an end
unless there is room for all entries, whatever is made of sizes that are too large. It runs into a
fault, unless it is refused for the entries first, as it would be with room for them.
-/

namespace DenseLinear

/-- A computation that lacks room runs into a fault. Where sizes are checked, it stops at a product
of sizes that is no machine word. -/
structure LacksRoom [sizes : SizeArithmetic] {β : Type} (x : Checked β) : Prop where
  faults : ∃ f, x = .error (.fault f)
  overflows : sizes = .checked → ∃ a b, UInt64.size ≤ a * b ∧ x = .error (.fault (.overflow a b))

namespace LacksRoom

variable [SizeArithmetic] {β γ : Type} {x : Checked β} (h : LacksRoom x)

include h

theorem unanswered (b : β) : x ≠ .ok b := by
  obtain ⟨f, rfl⟩ := h.faults
  exact nofun

theorem unrefused (e : Error) : x ≠ .error (.refused e) := by
  obtain ⟨f, rfl⟩ := h.faults
  exact unrefused_fault f e

theorem bind (f : β → Checked γ) : LacksRoom (x >>= f) := by
  refine ⟨?_, ?_⟩
  · obtain ⟨t, rfl⟩ := h.faults
    exact ⟨t, rfl⟩
  · intro hchecked
    obtain ⟨a, b, hle, hx⟩ := h.overflows hchecked
    exact ⟨a, b, hle, by rw [hx]; rfl⟩

end LacksRoom

variable {α : Type}

namespace Stored

section

variable {M N P : Stored α} {i j n r : Nat} {a : α}

/-- The sides are the same, and the arrays are equally long. -/
structure SameFrame (M N : Stored α) : Prop where
  size : N.data.size = M.data.size
  height : N.height = M.height
  width : N.width = M.width

theorem SameFrame.refl (M : Stored α) : M.SameFrame M := ⟨rfl, rfl, rfl⟩

theorem SameFrame.trans (h : M.SameFrame N) (h' : N.SameFrame P) : M.SameFrame P :=
  ⟨h'.size.trans h.size, h'.height.trans h.height, h'.width.trans h.width⟩

/-- The step from `M` to `N` keeps the frame, and has written in the place. -/
def WritesAt (M N : Stored α) (place : Nat) : Prop := M.SameFrame N ∧ place < M.data.size

theorem writesAt_of_write (h : M.write i j a = .ok N) : M.WritesAt N (i * M.width + j) := by
  obtain ⟨x, hx, hN⟩ := bind_eq_ok.mp h
  cases hN
  rw [store] at hx
  split_ifs at hx with hplace
  cases hx
  exact ⟨⟨Array.size_set hplace, rfl, rfl⟩, hplace⟩

theorem writesAt_of_setEntry (h : M.setEntry i j a = .ok N) :
    M.WritesAt N (i * M.width + j) := by
  rw [setEntry] at h
  split_ifs at h
  exact writesAt_of_write h

/-- If each step writes in some place, so does the whole loop in the place of its last step. -/
theorem writesAt_of_forRange {σ : Type} (view : σ → Stored α) (place : Nat → Nat → Nat)
    {body : Nat → σ → Checked σ} {s t : σ}
    (hstep : ∀ {i s t}, body i s = .ok t → (view s).WritesAt (view t) (place i (view s).width))
    (h : forRange 0 n body s = .ok t) :
    (view s).SameFrame (view t) ∧
      (0 < n → (view s).WritesAt (view t) (place (n - 1) (view s).width)) := by
  obtain ⟨ht, hsteps⟩ := forRange_invariant (fun t => (view s).SameFrame (view t)) (.refl _)
    (fun i t u ht hu => ht.trans (hstep hu).1) h
  refine ⟨ht, ?_⟩
  intro hn
  obtain ⟨u, v, hu, hv⟩ := hsteps (n - 1) (Nat.zero_le _) (by omega)
  have hplace := (hstep hv).2
  rw [hu.width, hu.size] at hplace
  exact ⟨ht, hplace⟩

theorem sameFrame_of_setRowStart {k : Nat} {x : Array α} (h : M.setRowStart i k x = .ok N) :
    M.SameFrame N := by
  obtain ⟨row, _, h⟩ := bind_eq_ok.mp h
  obtain ⟨_, _, h⟩ := bind_eq_ok.mp h
  split_ifs at h
  refine (writesAt_of_forRange id (fun j width => i * width + j) ?_ h).1
  intro j N P hP
  obtain ⟨b, _, hP⟩ := bind_eq_ok.mp hP
  exact writesAt_of_write hP

theorem size_of_fetch_columns {columns : Array (Array α)} (h : Rectangular columns r)
    {column : Array α} (hcolumn : fetch columns j = .ok column) : column.size = r := by
  rw [fetch] at hcolumn
  split_ifs at hcolumn with hj
  cases hcolumn
  exact h.size_row ⟨j, hj⟩

theorem size_of_build {β : Type} {f : Nat → Checked β} {x : Array β} (h : build n f = .ok x) :
    x.size = n := by
  induction n generalizing x with
  | zero =>
    rw [build, forRange_of_le le_rfl] at h
    cases h
    rfl
  | succ n ih =>
    rw [build, forRange_succ (Nat.zero_le n)] at h
    obtain ⟨y, hy, h⟩ := bind_eq_ok.mp h
    cases hb : f n with
    | error e =>
      rw [hb] at h
      cases h
    | ok b =>
      rw [hb] at h
      cases h
      rw [Array.size_push, ih hy]

theorem writesAt_of_qrStep [RootScalar α] {columns : Array (Array α)}
    {s t : Array (Array α) × Stored α} (h : qrStep columns i s = .ok t) :
    s.2.WritesAt t.2 (i * s.2.width + i) := by
  obtain ⟨a, _, h⟩ := bind_eq_ok.mp h
  obtain ⟨u, hu, h⟩ := bind_eq_ok.mp h
  obtain ⟨length, _, h⟩ := bind_eq_ok.mp h
  split_ifs at h
  obtain ⟨R, hR, h⟩ := bind_eq_ok.mp h
  cases h
  have hsu : s.2.SameFrame u.2 := by
    refine (writesAt_of_forRange Prod.snd (fun j width => j * width + i) ?_ hu).1
    intro j s t ht
    obtain ⟨column, _, ht⟩ := bind_eq_ok.mp ht
    obtain ⟨coeff, _, ht⟩ := bind_eq_ok.mp ht
    obtain ⟨R, hR, ht⟩ := bind_eq_ok.mp ht
    obtain ⟨v, _, ht⟩ := bind_eq_ok.mp ht
    cases ht
    exact writesAt_of_setEntry hR
  obtain ⟨huR, hplace⟩ := writesAt_of_setEntry hR
  rw [hsu.width, hsu.size] at hplace
  exact ⟨hsu.trans huR, hplace⟩

end

variable [SizeArithmetic] {M N : Stored α} {r c n : Nat}

/-- There is room for a matrix if there is a place for its last entry. -/
theorem fits_of_last (hr : 0 < r) (hc : 0 < c) {size : Nat} (htimes : times r c = .ok size)
    (hlast : (r - 1) * c + (c - 1) < size) : Fits r c := by
  obtain ⟨k, rfl⟩ : ∃ k, r = k + 1 := ⟨r - 1, by omega⟩
  apply fits_of_le htimes
  rw [Nat.succ_mul]
  rw [Nat.add_sub_cancel] at hlast
  omega

theorem fits_of_zeros [Zero α] (h : zeros r c = .ok M)
    (hlast : M.WritesAt N ((r - 1) * M.width + (c - 1))) : Fits r c := by
  obtain ⟨⟨hr, hc⟩, size, htimes, rfl⟩ := zeros_eq_ok_iff.mp h
  exact fits_of_last hr hc htimes (hlast.2.trans_eq Array.size_replicate)

theorem fits_of_identity [Zero α] [One α] (h : identity n = .ok M) : Fits n n := by
  obtain ⟨Z, hZ, hloop⟩ := bind_eq_ok.mp h
  have hn := (zeros_eq_ok_iff.mp hZ).1.1
  exact fits_of_zeros hZ
    ((writesAt_of_forRange id (fun i width => i * width + i) writesAt_of_write hloop).2 hn)

theorem fits_of_ofDiagonal [Zero α] {d : Array α} (h : ofDiagonal d = .ok M) :
    Fits d.size d.size := by
  obtain ⟨Z, hZ, hloop⟩ := bind_eq_ok.mp h
  have hd := (zeros_eq_ok_iff.mp hZ).1.1
  refine fits_of_zeros hZ
    ((writesAt_of_forRange id (fun i width => i * width + i) ?_ hloop).2 hd)
  intro i N P hP
  obtain ⟨a, _, hP⟩ := bind_eq_ok.mp hP
  exact writesAt_of_write hP

theorem fits_of_ofColumns [Zero α] {columns : Array (Array α)} (h : ofColumns columns = .ok M)
    (hrect : Rectangular columns r) : Fits r columns.size := by
  rw [ofColumns, checkRows_eq_ok hrect] at h
  simp only [Checked.lift_error_ok, Checked.ok_bind] at h
  obtain ⟨size, htimes, hloop⟩ := bind_eq_ok.mp h
  have hwrites := writesAt_of_forRange id (fun j width => (r - 1) * width + j) ?_ hloop
  · exact fits_of_last hrect.width_pos hrect.rows_pos htimes
      ((hwrites.2 hrect.rows_pos).2.trans_eq Array.size_replicate)
  · intro j N P hP
    obtain ⟨column, hfetch, hP⟩ := bind_eq_ok.mp hP
    rw [size_of_fetch_columns hrect hfetch] at hP
    refine (writesAt_of_forRange id (fun i width => i * width + j) ?_ hP).2 hrect.width_pos
    intro i N P hP
    obtain ⟨a, _, hP⟩ := bind_eq_ok.mp hP
    exact writesAt_of_write hP

theorem fits_of_augment [Scalar α] (h : M.augment n = .ok N) (hn : Fits 2 n) :
    Fits n (2 * n) := by
  obtain ⟨_, htwo, h⟩ := bind_eq_ok.mp h
  rw [times_of_fits hn] at htwo
  cases htwo
  obtain ⟨Z, hZ, hloop⟩ := bind_eq_ok.mp h
  have hpos := (zeros_eq_ok_iff.mp hZ).1.1
  have hcolumn : 2 * n - 1 = n + (n - 1) := by omega
  apply fits_of_zeros hZ
  rw [hcolumn]
  refine (writesAt_of_forRange id (fun i width => i * width + (n + i)) ?_ hloop).2 hpos
  intro i N P hP
  obtain ⟨row, _, hP⟩ := bind_eq_ok.mp hP
  obtain ⟨Q, hQ, hP⟩ := bind_eq_ok.mp hP
  have hNQ := sameFrame_of_setRowStart hQ
  obtain ⟨hQP, hplace⟩ := writesAt_of_setEntry hP
  rw [hNQ.width, hNQ.size] at hplace
  exact ⟨hNQ.trans hQP, hplace⟩

/-- The loop over the columns ends only if there was room for the second factor. -/
theorem fits_of_forRange_qrStep [RootScalar α] {columns : Array (Array α)} {Z : Stored α}
    {V : Array (Array α)} {s : Array (Array α) × Stored α} (hZ : zeros n n = .ok Z)
    (h : forRange 0 n (qrStep columns) (V, Z) = .ok s) : Fits n n := by
  have hn := (zeros_eq_ok_iff.mp hZ).1.1
  exact fits_of_zeros hZ
    ((writesAt_of_forRange Prod.snd (fun i width => i * width + i) writesAt_of_qrStep h).2 hn)

end Stored

theorem zeros_overflow [Zero α] [sizes : SizeArithmetic] {r c : Nat} (hr : 0 < r) (hc : 0 < c)
    (hsizes : sizes = .checked) (h : ¬Fits r c) :
    (Stored.zeros r c : Checked (Stored α)) = .error (.fault (.overflow r c)) := by
  rw [Stored.zeros, if_pos ⟨hr, hc⟩, times_of_not_fits hsizes h]
  rfl

namespace Mat

variable [sizes : SizeArithmetic] {m n k : Nat}

theorem mul_lacksRoom [Scalar α] (hm : 0 < m) (hn : 0 < n) (h : ¬Fits m n) (A : Mat α m k)
    (B : Mat α k n) : LacksRoom (A.stored.mul B.stored) := by
  rw [Stored.mul, if_pos ((height_stored B).trans (width_stored A).symm), height_stored,
    width_stored, ← bind_assoc]
  refine LacksRoom.bind ⟨?_, ?_⟩ _
  · refine Unrefused.exists_fault ?_ ?_
    · refine (unrefused_times m n).bind fun size => .forRange (fun i P => ?_) _
      refine .forRange (fun j P => ?_) P
      refine Unrefused.bind (.forRange (fun p s => ?_) 0) fun entry => P.unrefused_write i j entry
      exact (A.stored.unrefused_read i p).bind fun x =>
        (B.stored.unrefused_read p j).bind fun y => unrefused_ok _
    · intro P hP
      obtain ⟨size, htimes, hloop⟩ := bind_eq_ok.mp hP
      have hlast := (Stored.writesAt_of_forRange id (fun i width => i * width + (n - 1)) ?_
        hloop).2
      · exact h (Stored.fits_of_last hm hn htimes ((hlast hm).2.trans_eq Array.size_replicate))
      · intro i Q R hR
        refine (Stored.writesAt_of_forRange id (fun j width => i * width + j) ?_ hR).2 hn
        intro j Q R hR
        obtain ⟨a, _, hR⟩ := bind_eq_ok.mp hR
        exact Stored.writesAt_of_write hR
  · intro hsizes
    refine ⟨m, n, Fits.le_of_not h, ?_⟩
    rw [times_of_not_fits hsizes h]
    rfl

omit sizes in
/-- A loop over the columns that does not end, whatever it writes the second factor to, stops at the
first dependent column, or at a fault before. -/
theorem forRange_qrStep_unended [RootScalar α] (hm : 0 < m) (A : Mat α m n) {Z : Stored α}
    (h : ∀ s, forRange 0 n (Stored.qrStep (A.columnVectors n)) (#[], Z) ≠ .ok s) :
    (∃ c : Fin n, A.qr = .error c ∧ forRange 0 n (Stored.qrStep (A.columnVectors n)) (#[], Z) =
      .error (.refused (.rankDeficient c))) ∨
    ∃ f, forRange 0 n (Stored.qrStep (A.columnVectors n)) (#[], Z) = .error (.fault f) := by
  have hloop := A.forRange_qrStep hm
  rcases AlikeUntilFault.forRange (fun i V R S => R.qrStep_alike S (A.columnVectors n) i V) #[] Z
    (zero n n).stored with hfault | ⟨f, hf⟩ | hsame
  · exact .inr hfault
  · rw [hloop] at hf
    cases hqr : A.qr <;> rw [hqr] at hf <;> cases hf
  · rw [hloop] at hsame
    cases hs : forRange 0 n (Stored.qrStep (A.columnVectors n)) (#[], Z) with
    | ok s => exact absurd hs (h s)
    | error s =>
      rw [hs] at hsame
      cases hqr : A.qr with
      | ok f =>
        rw [hqr] at hsame
        cases hsame
      | error c =>
        rw [hqr] at hsame
        cases hsame
        exact .inl ⟨c, rfl, rfl⟩

/-- Without room for the second factor, a dependent column may still be found before the first entry
that has no place. -/
theorem qr_lacksRoom [RootScalar α] (hm : 0 < m) (hn : 0 < n) (h : ¬Fits n n) (A : Mat α m n) :
    (∃ c : Fin n, A.qr = .error c ∧ A.stored.qr = .error (.refused (.rankDeficient c))) ∨
      LacksRoom A.stored.qr := by
  rw [Stored.qr, columns_stored, Checked.ok_bind, ← columnVectors_self,
    A.size_columnVectors le_rfl, width_stored]
  cases hZ : (Stored.zeros n n : Checked (Stored α)) with
  | error s =>
    refine .inr (LacksRoom.bind ⟨?_, ?_⟩ _)
    · rw [← hZ]
      apply (Stored.unrefused_zeros n n).exists_fault
      intro b hb
      rw [hZ] at hb
      cases hb
    · intro hsizes
      exact ⟨n, n, Fits.le_of_not h, by rw [← hZ, zeros_overflow hn hn hsizes h]⟩
  | ok Z =>
    have hunchecked : sizes ≠ .checked := by
      intro hsizes
      rw [zeros_overflow hn hn hsizes h] at hZ
      cases hZ
    rw [Checked.ok_bind]
    rcases A.forRange_qrStep_unended hm fun s hs => h (Stored.fits_of_forRange_qrStep hZ hs) with
      ⟨c, hc, hs⟩ | ⟨f, hf⟩
    · rw [hs]
      exact .inl ⟨c, hc, rfl⟩
    · rw [hf]
      exact .inr ⟨⟨f, rfl⟩, fun hsizes => absurd hsizes hunchecked⟩

theorem inverse_lacksRoom [Scalar α] (hn : 0 < n) (h : Fits n n) (hnot : ¬Fits n (2 * n))
    (A : Mat α n n) : LacksRoom A.stored.inverse := by
  have htwo : 2 ≤ n := by
    by_contra hlt
    obtain rfl : n = 1 := by omega
    exact hnot (.inr (by decide))
  have hdouble : Fits 2 n := h.of_le (Nat.mul_le_mul_right n htwo)
  rw [Stored.inverse, side_stored, Checked.ok_bind]
  refine LacksRoom.bind ⟨?_, ?_⟩ _
  · exact (A.stored.unrefused_augment n).exists_fault
      fun W hW => hnot (Stored.fits_of_augment hW hdouble)
  · intro hsizes
    refine ⟨n, 2 * n, Fits.le_of_not hnot, ?_⟩
    rw [Stored.augment, times_of_fits hdouble, Checked.ok_bind,
      zeros_overflow hn (by omega) hsizes hnot]
    rfl

end Mat

end DenseLinear
