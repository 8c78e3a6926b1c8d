import DenseLinear.Proofs.Storage.RoundTrips
import DenseLinear.Proofs.Storage.Safety

/-!
# Matrices that can be obtained

Whatever matrix the operations lead to, its storage is that of a dense matrix: it has a row and a
column, and as many entries as its sides say. Every operation keeps this, for none makes a matrix
that there is no room for. Three ways to begin can break it. An array and two sides are accepted,
and so are the sides of a matrix of zeros, if the product of the sides wraps around to the length of
the array. A decoder takes array and sides as they come. Where these are kept out, every operation on
every matrix is safe.
-/

namespace DenseLinear

variable {α : Type} [RootScalar α]

section

variable (sizes : SizeArithmetic) (decoder sized : Prop)

/-- The storage of a matrix that some sequence of constructions and operations leads to. With
`sized`, no sides are given that are too large. Rows that are given are all in memory, so they have
as many entries as a size can tell. The decoder is an option of the library. -/
inductive Obtainable : Stored α → Prop where
  | ofFlat {data r c M} (hsized : sized → Fits r c) (h : Stored.ofFlat data r c = .ok M) :
      Obtainable M
  | ofRows {rows M} (hlength : IsSize rows.flatten.size) (h : Stored.ofRows rows = .ok M) :
      Obtainable M
  | ofColumns {columns M} (h : Stored.ofColumns columns = .ok M) : Obtainable M
  | zeros {r c M} (hsized : sized → Fits r c) (h : Stored.zeros r c = .ok M) : Obtainable M
  | identity {n M} (h : Stored.identity n = .ok M) : Obtainable M
  | ofDiagonal {d M} (h : Stored.ofDiagonal d = .ok M) : Obtainable M
  | decoded (h : decoder) (data r c) : Obtainable ⟨data, r, c⟩
  | setEntry {M N i j a} (hM : Obtainable M) (h : M.setEntry i j a = .ok N) : Obtainable N
  | map {M} (f : α → α) (hM : Obtainable M) : Obtainable (M.map f)
  | transpose {M N} (hM : Obtainable M) (h : M.transpose = .ok N) : Obtainable N
  | mul {M N P} (hM : Obtainable M) (hN : Obtainable N) (h : M.mul N = .ok P) : Obtainable P
  | rref {M N} (hM : Obtainable M) (h : M.rref = .ok N) : Obtainable N
  | inverse {M N} (hM : Obtainable M) (h : M.inverse = .ok N) : Obtainable N
  | changeOfBasis {M N P} (hM : Obtainable M) (hN : Obtainable N)
      (h : M.changeOfBasis N = .ok P) : Obtainable P
  | lower {M L U} (hM : Obtainable M) (h : M.lu = .ok (L, U)) : Obtainable L
  | upper {M L U} (hM : Obtainable M) (h : M.lu = .ok (L, U)) : Obtainable U
  | orthonormal {M Q R} (hM : Obtainable M) (h : M.qr = .ok (Q, R)) : Obtainable Q
  | coefficients {M Q R} (hM : Obtainable M) (h : M.qr = .ok (Q, R)) : Obtainable R
  | eigenvectors {M P D Q} (hM : Obtainable M) (h : M.diagonalize = .ok (P, D, Q)) : Obtainable P
  | eigenvalues {M P D Q} (hM : Obtainable M) (h : M.diagonalize = .ok (P, D, Q)) : Obtainable D
  | eigenvectorsInverse {M P D Q} (hM : Obtainable M) (h : M.diagonalize = .ok (P, D, Q)) :
      Obtainable Q

end

theorem exists_of_isSome {β : Type} {x : Checked β} (h : x.toOption.isSome) : ∃ b, x = .ok b := by
  cases x with
  | error s => cases h
  | ok b => exact ⟨b, rfl⟩

theorem exists_view_of_refusing {β γ : Type} {y : Except Error β} {view : β → γ} {c : γ}
    (h : (liftM (y.map view) : Checked γ) = .ok c) : ∃ b, y = .ok b ∧ view b = c := by
  cases y with
  | error e => cases h
  | ok b => exact ⟨b, rfl, Except.ok.inj h⟩

theorem exists_view_of_misusing {β γ : Type} {y : Except Misuse β} {view : β → γ} {c : γ}
    (h : (liftM (y.map view) : Checked γ) = .ok c) : ∃ b, y = .ok b ∧ view b = c := by
  cases y with
  | error e => cases h
  | ok b => exact ⟨b, rfl, Except.ok.inj h⟩

section

variable [sizes : SizeArithmetic] {M N : Stored α} {r c n : Nat}

namespace Stored

/-- The storage of a dense matrix with room for its entries. -/
def Sound (M : Stored α) : Prop := ∃ A : DenseMatrix α, A.stored = M ∧ Fits A.height A.width

section

omit [RootScalar α]

theorem WellFormed.sound (h : M.WellFormed) (hfits : Fits M.height M.width) : M.Sound := by
  obtain ⟨A, rfl⟩ := wellFormed_iff.mp h
  exact ⟨A, rfl, hfits⟩

theorem sound_of_ofFlat {data : Array α} (hfits : Fits r c) (h : ofFlat data r c = .ok M) :
    M.Sound := by
  have hM := (wellFormed_ofFlat_iff h).mpr hfits
  obtain ⟨_, _, rfl⟩ := ofFlat_eq_ok_iff.mp h
  exact hM.sound hfits

theorem sound_of_ofRows {rows : Array (Array α)} (hlength : IsSize rows.flatten.size)
    (h : ofRows rows = .ok M) : M.Sound := by
  rw [DenseMatrix.ofRows_stored_of_isSize hlength] at h
  obtain ⟨A, hA, rfl⟩ := exists_view_of_refusing h
  exact ⟨A, rfl, by rwa [DenseMatrix.size_flatten_of_ofRows hA] at hlength⟩

variable [Zero α] [One α]

theorem sound_of_ofColumns {columns : Array (Array α)} (h : ofColumns columns = .ok M) :
    M.Sound := by
  have hfits : ∀ A, DenseMatrix.ofColumns columns = .ok A → Fits A.height A.width := by
    intro A hA
    rw [DenseMatrix.ofColumns] at hA
    obtain ⟨⟨height, hrect⟩, _, hA⟩ := bind_eq_ok.mp hA
    cases hA
    exact fits_of_ofColumns h hrect
  rw [DenseMatrix.ofColumns_stored hfits] at h
  obtain ⟨A, hA, rfl⟩ := exists_view_of_refusing h
  exact ⟨A, rfl, hfits A hA⟩

omit [One α] in
theorem sound_of_zeros (hfits : Fits r c) (h : zeros r c = .ok M) : M.Sound := by
  have hM := (wellFormed_zeros_iff h).mpr hfits
  obtain ⟨_, size, _, rfl⟩ := zeros_eq_ok_iff.mp h
  exact hM.sound hfits

theorem sound_of_identity (h : identity n = .ok M) : M.Sound := by
  have hfits := fits_of_identity h
  rw [DenseMatrix.identity_stored hfits] at h
  obtain ⟨A, hA, rfl⟩ := exists_view_of_misusing h
  rw [DenseMatrix.identity] at hA
  split_ifs at hA
  cases hA
  exact ⟨_, rfl, hfits⟩

theorem sound_of_ofDiagonal {d : Array α} (h : ofDiagonal d = .ok M) : M.Sound := by
  have hfits := fits_of_ofDiagonal h
  rw [DenseMatrix.ofDiagonal_stored hfits] at h
  obtain ⟨A, hA, rfl⟩ := exists_view_of_misusing h
  rw [DenseMatrix.ofDiagonal] at hA
  split_ifs at hA
  cases hA
  exact ⟨_, rfl, hfits⟩

end

end Stored

omit [RootScalar α] in
/-- What an operation answers is sound, if it implements one on matrices. -/
theorem Implements.sound {x : Checked (Stored α)} {y : Except Error (DenseMatrix α)}
    (h : Implements x (y.map DenseMatrix.stored) fun N => N.HasShape r c) (hfits : Fits r c)
    (hx : x = .ok N) : N.Sound := by
  obtain ⟨B, _, rfl⟩ := exists_view_of_refusing (h.agrees.symm.trans hx)
  have hshape := h.answers _ hx
  exact ⟨B, rfl, by rwa [← hshape.height, ← hshape.width] at hfits⟩

namespace DenseMatrix

variable {A : DenseMatrix α} (hA : Fits A.height A.width)
include hA

omit [RootScalar α] in
theorem setEntry_sound {i j : Nat} {a : α} (h : A.stored.setEntry i j a = .ok N) : N.Sound := by
  rw [A.setEntry_stored] at h
  obtain ⟨B, hB, rfl⟩ := exists_view_of_misusing h
  rw [set] at hB
  split_ifs at hB
  cases hB
  exact ⟨_, rfl, hA⟩

theorem lu_sound {L U : Stored α} (h : A.stored.lu = .ok (L, U)) : L.Sound ∧ U.Sound := by
  rcases A.square_cases with ⟨n, hn, S, rfl⟩ | ⟨hside, _⟩
  · rw [lu_stored _ hA] at h
    obtain ⟨f, _, hf⟩ := exists_view_of_refusing h
    cases hf
    exact ⟨⟨⟨n, n, hn, hn, f.lower⟩, rfl, hA⟩, ⟨⟨n, n, hn, hn, f.upper⟩, rfl, hA⟩⟩
  · rw [Stored.lu, hside] at h
    cases h

theorem qr_sound {Q R : Stored α} (h : A.stored.qr = .ok (Q, R)) : Q.Sound ∧ R.Sound := by
  obtain ⟨hfits, hqr⟩ := (A.safeOperations hA).qr.of_ok h
  obtain ⟨f, _, hf⟩ := exists_view_of_refusing (hqr.agrees.symm.trans h)
  cases hf
  exact ⟨⟨A.withEntries f.q, rfl, hA⟩, ⟨A.ofWidth f.r, rfl, hfits⟩⟩

theorem diagonalize_sound {P D Q : Stored α} (h : A.stored.diagonalize = .ok (P, D, Q)) :
    P.Sound ∧ D.Sound ∧ Q.Sound := by
  obtain ⟨hroom, hdiagonalize⟩ := (A.safeOperations hA).diagonalize.of_ok h
  obtain ⟨f, _, hf⟩ := exists_view_of_refusing (hdiagonalize.agrees.symm.trans h)
  cases hf
  have hfits : Fits A.height A.height := hroom.of_half
  exact ⟨⟨A.ofSquare f.p, rfl, hfits⟩, ⟨A.ofSquare f.d, rfl, hfits⟩, ⟨A.ofSquare f.pInv, rfl, hfits⟩⟩

end DenseMatrix

/-- No operation leads out of the storages of dense matrices, if nothing is decoded and all sides
that are given fit. Sizes that do not wrap around see to that themselves. -/
theorem Obtainable.sound {decoder sized : Prop} (hdecoder : ¬decoder)
    (hsized : sized ∨ sizes ≠ .wrapping) (hM : Obtainable sizes decoder sized M) : M.Sound := by
  have hgiven {r c size : Nat} (h : sized → Fits r c) (htimes : times r c = .ok size) :
      Fits r c := hsized.elim h fun hw => fits_of_times hw htimes
  induction hM with
  | ofFlat h hM => exact Stored.sound_of_ofFlat (hgiven h (Stored.ofFlat_eq_ok_iff.mp hM).2.1) hM
  | ofRows hlength h => exact Stored.sound_of_ofRows hlength h
  | ofColumns h => exact Stored.sound_of_ofColumns h
  | zeros h hM =>
    obtain ⟨_, size, htimes, _⟩ := Stored.zeros_eq_ok_iff.mp hM
    exact Stored.sound_of_zeros (hgiven h htimes) hM
  | identity h => exact Stored.sound_of_identity h
  | ofDiagonal h => exact Stored.sound_of_ofDiagonal h
  | decoded h => exact absurd h hdecoder
  | setEntry _ h ih =>
    obtain ⟨A, rfl, hA⟩ := ih
    exact DenseMatrix.setEntry_sound hA h
  | map f _ ih =>
    obtain ⟨A, rfl, hA⟩ := ih
    exact ⟨A.map f, (A.map_stored f).symm, hA⟩
  | transpose _ h ih =>
    obtain ⟨A, rfl, hA⟩ := ih
    exact Implements.sound (y := .ok A.transpose) (A.safeOperations hA).transpose hA.symm h
  | mul _ _ h ih ih' =>
    obtain ⟨A, rfl, hA⟩ := ih
    obtain ⟨B, rfl, _⟩ := ih'
    obtain ⟨hfits, hmul⟩ := ((A.safeOperations hA).mul B).of_ok h
    exact hmul.sound hfits h
  | rref _ h ih =>
    obtain ⟨A, rfl, hA⟩ := ih
    exact (A.safeOperations hA).rref.sound hA h
  | inverse _ h ih =>
    obtain ⟨A, rfl, hA⟩ := ih
    obtain ⟨hroom, hinverse⟩ := (A.safeOperations hA).inverse.of_ok h
    exact hinverse.sound hroom.of_half h
  | changeOfBasis _ _ h ih ih' =>
    obtain ⟨A, rfl, hA⟩ := ih
    obtain ⟨B, rfl, _⟩ := ih'
    obtain ⟨hroom, hchange⟩ := ((A.safeOperations hA).changeOfBasis B).of_ok h
    exact hchange.sound hroom.of_half h
  | lower _ h ih =>
    obtain ⟨A, rfl, hA⟩ := ih
    exact (DenseMatrix.lu_sound hA h).1
  | upper _ h ih =>
    obtain ⟨A, rfl, hA⟩ := ih
    exact (DenseMatrix.lu_sound hA h).2
  | orthonormal _ h ih =>
    obtain ⟨A, rfl, hA⟩ := ih
    exact (DenseMatrix.qr_sound hA h).1
  | coefficients _ h ih =>
    obtain ⟨A, rfl, hA⟩ := ih
    exact (DenseMatrix.qr_sound hA h).2
  | eigenvectors _ h ih =>
    obtain ⟨A, rfl, hA⟩ := ih
    exact (DenseMatrix.diagonalize_sound hA h).1
  | eigenvalues _ h ih =>
    obtain ⟨A, rfl, hA⟩ := ih
    exact (DenseMatrix.diagonalize_sound hA h).2.1
  | eigenvectorsInverse _ h ih =>
    obtain ⟨A, rfl, hA⟩ := ih
    exact (DenseMatrix.diagonalize_sound hA h).2.2

/-- Every dense matrix can be obtained, and under these conditions nothing else. -/
theorem obtainable_iff {decoder sized : Prop} (hdecoder : ¬decoder)
    (hsized : sized ∨ sizes ≠ .wrapping) : Obtainable sizes decoder sized M ↔ M.Sound := by
  constructor
  · exact Obtainable.sound hdecoder hsized
  · rintro ⟨A, rfl, hA⟩
    exact .ofFlat (fun _ => hA) (A.entries.ofFlat_flat A.height_pos A.width_pos hA)

namespace Stored

/-- A square without entries. -/
def hollow (n : Nat) : Stored α := ⟨#[], n, n⟩

section

omit [RootScalar α]

/-- An empty array passes for a square, if the number of its entries wraps around to zero. -/
theorem ofFlat_hollow (hw : sizes = .wrapping) (hn : 0 < n) (h : n * n % UInt64.size = 0) :
    ofFlat #[] n n = .ok (hollow n : Stored α) :=
  ofFlat_eq_ok_iff.mpr ⟨⟨hn, hn⟩, by rw [times_wrapping hw, h]; rfl, rfl⟩

omit sizes

theorem not_wellFormed_hollow (n : Nat) : ¬(hollow n : Stored α).WellFormed := by
  intro h
  exact absurd h.size_data (Nat.mul_pos h.height_pos h.width_pos).ne

theorem read_hollow (n i j : Nat) :
    (hollow n : Stored α).read i j = .error (.fault (.index (i * n + j) 0)) :=
  (dif_neg (Nat.not_lt_zero _) : fetch #[] (i * n + j) = .error (.fault (.index (i * n + j) 0)))

theorem entry_hollow {i j : Nat} (hi : i < n) (hj : j < n) :
    (hollow n : Stored α).entry i j = .error (.fault (.index (i * n + j) 0)) :=
  (if_pos ⟨hi, hj⟩).trans (read_hollow n i j)

theorem side_hollow (n : Nat) : (hollow n : Stored α).side = .ok n := if_pos rfl

end

omit sizes

/-- The search for the first pivot starts with a comparison of two entries. -/
theorem det_hollow (hn : 1 < n) : (hollow n : Stored α).det = .error (.fault (.index n 0)) := by
  have hscan : (hollow n : Stored α).largestRow 0 0 = .error (.fault (.index n 0)) := by
    apply forRange_eq_error hn
    rw [entry_hollow hn (by omega), Nat.one_mul]
    rfl
  have hstep : eliminationStep 0 ((hollow n : Stored α), 1) =
      .error (.stop (.fault (.index n 0))) := by
    rw [eliminationStep, hscan]
    rfl
  rw [det, side_hollow, Checked.ok_bind, forRange_eq_error (by omega) hstep]
  rfl

theorem trace_hollow (hn : 0 < n) : (hollow n : Stored α).trace = .error (.fault (.index 0 0)) := by
  have hdiagonal : (hollow n : Stored α).diagonal = .error (.fault (.index 0 0)) := by
    apply forRange_eq_error (Nat.lt_min.mpr ⟨hn, hn⟩)
    show _ <$> (hollow n : Stored α).read 0 0 = _
    rw [read_hollow, Nat.zero_mul]
    rfl
  rw [trace, side_hollow, hdiagonal]
  rfl

end Stored

/-- A product of two dense matrices is written to an empty array, if the number of its entries wraps
around to zero. -/
theorem Mat.mul_hollow {m k : Nat} (hw : sizes = .wrapping) (hm : 0 < m) (hn : 0 < n)
    (h : m * n % UInt64.size = 0) (A : Mat α m k) (B : Mat α k n) :
    A.stored.mul B.stored = .error (.fault (.index 0 0)) := by
  rw [Stored.mul, if_pos ((height_stored B).trans (width_stored A).symm), height_stored,
    width_stored, width_stored, times_wrapping hw, h, Checked.ok_bind]
  have hwrite : (do
      let entry ← forRange 0 k (fun p s => do
        return s + (← A.stored.read 0 p) * (← B.stored.read p 0)) 0
      Stored.write (⟨Array.replicate 0 0, m, n⟩ : Stored α) 0 0 entry) =
        .error (.fault (.index 0 0)) := by
    rw [mulEntry_stored A B ⟨0, hm⟩ ⟨0, hn⟩, Checked.ok_bind, Stored.write, Nat.zero_mul]
    rfl
  rw [forRange_eq_error hm (forRange_eq_error hn hwrite)]
  rfl

omit sizes in
/-- Every matrix that can be obtained is one of the dense matrices, and every operation is safe on
it, exactly if nothing is decoded and no product of given sides wraps around. -/
theorem obtainable_safe_iff (sizes : SizeArithmetic) (decoder sized : Prop) :
    (∀ M : Stored α, Obtainable sizes decoder sized M →
      M.WellFormed ∧ ∃ A : DenseMatrix α, A.stored = M ∧ A.SafeOperations sizes) ↔
        ¬decoder ∧ (sized ∨ sizes ≠ .wrapping) := by
  constructor
  · intro h
    refine ⟨?_, ?_⟩
    · intro hdecoder
      exact absurd (h _ (.decoded hdecoder #[] 0 3)).1.height_pos (lt_irrefl 0)
    · by_contra hnot
      obtain ⟨hsized, hw⟩ := not_or.mp hnot
      have hhollow : Stored.ofFlat #[] (2 ^ 32) (2 ^ 32) = .ok (.hollow (2 ^ 32) : Stored α) :=
        Stored.ofFlat_hollow (not_not.mp hw) (by decide) (by decide)
      exact Stored.not_wellFormed_hollow _ (h _ (.ofFlat (fun hs => absurd hs hsized) hhollow)).1
  · rintro ⟨hdecoder, hsized⟩ M hM
    obtain ⟨A, rfl, hA⟩ := (obtainable_iff hdecoder hsized).mp hM
    exact ⟨Stored.wellFormed_iff.mpr ⟨A, rfl⟩, A, rfl, A.safeOperations hA⟩

end

/-- No entry need be a number for the operations to be safe, on a square as on a tall and a wide
matrix, and on what comes of them. -/
theorem operations_safe_of_exceptional :
    let _ : SizeArithmetic := .checked
    let square : DenseMatrix Float :=
      ⟨2, 2, Nat.two_pos, Nat.two_pos, .ofFn ![![0 / 0, 1], ![1 / 0, -0]]⟩
    let tall : DenseMatrix Float :=
      ⟨3, 2, Nat.succ_pos 2, Nat.two_pos, .ofFn ![![1, 0 / 0], ![-1 / 0, 2], ![0, 3]]⟩
    let wide : DenseMatrix Float :=
      ⟨2, 3, Nat.two_pos, Nat.succ_pos 2, .ofFn ![![1, 2, 3], ![1 / 0, 0, 5]]⟩
    (Obtainable .checked False False square.stored ∧ square.stored.WellFormed ∧
      (∃ B, square.stored.inverse = .ok B ∧ B.HasShape 2 2) ∧
      (∃ L U, square.stored.lu = .ok (L, U) ∧ L.HasShape 2 2 ∧ U.HasShape 2 2) ∧
      (∀ options f, square.stored.eigenvalues options ≠ .error (.fault f)) ∧
      ∀ f, square.stored.diagonalize ≠ .error (.fault f)) ∧
    (Obtainable .checked False False tall.stored ∧
      ∃ Q R, tall.stored.qr = .ok (Q, R) ∧ Q.HasShape 3 2 ∧ R.HasShape 2 2) ∧
    ∃ P, wide.stored.mul tall.stored = .ok P ∧ Obtainable .checked False False P ∧
      P.HasShape 2 2 ∧ P.WellFormed ∧ ∀ f, P.det ≠ .error (.fault f) := by
  intro _ square tall wide
  have hchecked : False ∨ SizeArithmetic.checked ≠ .wrapping := .inr nofun
  have hobtain (A : DenseMatrix Float) (hA : Fits A.height A.width) :
      Obtainable .checked False False A.stored :=
    (obtainable_iff not_false hchecked).mpr ⟨A, rfl, hA⟩
  have hsafe := (obtainable_safe_iff (α := Float) .checked False False).mpr ⟨not_false, hchecked⟩
  have hoperations (A : DenseMatrix Float) (hA : Fits A.height A.width) :
      A.SafeOperations .checked := by
    obtain ⟨_, B, hB, hsafe⟩ := hsafe _ (hobtain A hA)
    rwa [DenseMatrix.stored_injective hB] at hsafe
  have hroom : Fits 2 (2 * 2) := .inr (by decide)
  have hsquare := hoperations square (.inr (by decide))
  have htall := hoperations tall (.inr (by decide))
  have hwide := hoperations wide (.inr (by decide))
  obtain ⟨B, hB⟩ := exists_of_isSome (x := square.stored.inverse) (by decide +kernel)
  obtain ⟨⟨L, U⟩, hLU⟩ := exists_of_isSome (x := square.stored.lu) (by decide +kernel)
  obtain ⟨⟨Q, R⟩, hQR⟩ := exists_of_isSome (x := tall.stored.qr) (by decide +kernel)
  obtain ⟨P, hP⟩ := exists_of_isSome (x := wide.stored.mul tall.stored) (by decide +kernel)
  have hobtained : Obtainable .checked False False P :=
    .mul (hobtain wide (.inr (by decide))) (hobtain tall (.inr (by decide))) hP
  obtain ⟨hwell, C, rfl, hproduct⟩ := hsafe P hobtained
  exact ⟨⟨hobtain square (.inr (by decide)), (hsafe _ (hobtain square (.inr (by decide)))).1,
    ⟨B, hB, (hsquare.inverse.implements hroom).answers B hB⟩,
    ⟨L, U, hLU, hsquare.lu.answers _ hLU⟩,
    fun options => (hsquare.eigenvalues options).faultless,
    (hsquare.diagonalize.implements hroom).faultless⟩,
    ⟨hobtain tall (.inr (by decide)), Q, R, hQR,
      (htall.qr.implements (.inr (by decide))).answers _ hQR⟩,
    _, hP, hobtained, ((hwide.mul tall).implements (.inr (by decide))).answers _ hP, hwell,
    hproduct.det.faultless⟩

/-- Where sizes wrap around, an empty array passes for a matrix, and a product of two dense matrices
has no more than an empty array to write to. A decoder accepts sides that are not positive or have
nothing to do with the array. -/
theorem hollow_operations_fault :
    let _ : SizeArithmetic := .wrapping
    let hollow : Stored Float := .hollow (2 ^ 32)
    let column : DenseMatrix Float := ⟨2 ^ 32, 1, by decide, Nat.one_pos, .zero (2 ^ 32) 1⟩
    let row : DenseMatrix Float := ⟨1, 2 ^ 32, Nat.one_pos, by decide, .zero 1 (2 ^ 32)⟩
    let empty : Stored Float := ⟨#[], 0, 3⟩
    let short : Stored Float := ⟨#[1], 2, 2⟩
    (Obtainable .wrapping False False hollow ∧ ¬hollow.WellFormed ∧
      hollow.det = .error (.fault (.index (2 ^ 32) 0)) ∧
      hollow.trace = .error (.fault (.index 0 0))) ∧
    (Obtainable .wrapping False False column.stored ∧ Obtainable .wrapping False False row.stored ∧
      column.stored.mul row.stored = .error (.fault (.index 0 0))) ∧
    (Obtainable .checked True True empty ∧ ¬empty.WellFormed) ∧
    Obtainable .checked True True short ∧ ¬short.WellFormed ∧
      short.trace = .error (.fault (.index 3 1)) := by
  intro _ hollow column row empty short
  have hempty : ¬empty.WellFormed := fun h => absurd h.height_pos (lt_irrefl 0)
  have hshort : ¬short.WellFormed := fun h => absurd h.size_data (by decide)
  have hpos : 0 < 2 ^ 32 := by decide
  have hzeros := Mat.zeros_stored (α := Float) hpos Nat.one_pos (.inr (by decide))
  have hzeros' := Mat.zeros_stored (α := Float) Nat.one_pos hpos (.inr (by decide))
  have hhollow : Obtainable .wrapping False False hollow :=
    .ofFlat False.elim (Stored.ofFlat_hollow rfl hpos (by decide))
  refine ⟨⟨hhollow, Stored.not_wellFormed_hollow _, Stored.det_hollow (by decide),
    Stored.trace_hollow hpos⟩, ⟨.zeros False.elim hzeros, .zeros False.elim hzeros',
    Mat.mul_hollow rfl hpos hpos (by decide) _ _⟩, ⟨.decoded trivial .., hempty⟩,
    .decoded trivial .., hshort, rfl⟩

end DenseLinear
