import DenseLinear.Proofs.Storage.Access
import DenseLinear.Storage.Build

/-!
# Building and multiplying stored matrices

As long as the number of entries is a size, an operation that makes a matrix makes the storage of
the one that it is named for, and refuses what that refuses.
-/

namespace DenseLinear

variable {α : Type}

theorem foldl_ofFn {β γ : Type} {n : Nat} (f : γ → β → γ) (g : Fin n → β) (c : γ) :
    (Array.ofFn g).foldl f c = Fin.foldl n (fun c i => f c (g i)) c := by
  rw [← Array.foldl_toList, Array.toList_ofFn, List.ofFn_eq_map, List.foldl_map,
    Fin.foldl_eq_foldl_finRange]

theorem total_toArray [Scalar α] {n : Nat} (x : Vec α n) : total x.toArray = sum x.entry := by
  rw [total, Vec.toArray_eq_ofFn, foldl_ofFn]
  rfl

namespace DenseVector

variable {n : Nat} (hn : 0 < n) (x y : Vec α n)
include hn

theorem dot_toArray [Scalar α] : dot x.toArray y.toArray = .ok (x.dot y) := by
  rw [dot, check_toArray hn, Checked.ok_bind, fit_toArray hn, Checked.ok_bind, fit_toArray hn]
  rfl

theorem addScaled_toArray [Scalar α] (c : α) :
    addScaled c x.toArray y.toArray = .ok (x.addScaled c y).toArray := by
  rw [addScaled, check_toArray hn, Checked.ok_bind, fit_toArray hn, Checked.ok_bind,
    fit_toArray hn]
  rfl

theorem norm_toArray [RootScalar α] : norm x.toArray = .ok x.norm := by
  rw [norm, check_toArray hn, Checked.ok_bind, fit_toArray hn]
  rfl

end DenseVector

theorem checkRows_eq_ok {rows : Array (Array α)} {width : Nat} (h : Rectangular rows width) :
    checkRows rows = .ok ⟨width, h⟩ := by
  have hrows := h.rows_pos
  obtain rfl : rows[0].size = width := h.size_row ⟨0, hrows⟩
  rw [checkRows, dif_pos hrows]
  exact (dif_pos h.width_pos).trans (dif_pos h.size_row)

theorem mapM_eq_ok {ε β γ : Type} {f : β → Except ε γ} {g : β → γ} {l : List β}
    (h : ∀ b ∈ l, f b = .ok (g b)) : l.mapM f = .ok (l.map g) := by
  induction l with
  | nil => rfl
  | cons b l ih =>
    rw [List.mapM_cons, h b List.mem_cons_self, Checked.ok_bind,
      ih fun c hc => h c (List.mem_cons_of_mem b hc)]
    rfl

namespace Stored

variable [SizeArithmetic] {M : Stored α} {r c : Nat}

theorem ofFlat_eq_ok_iff {data : Array α} :
    ofFlat data r c = .ok M ↔
      (0 < r ∧ 0 < c) ∧ times r c = .ok data.size ∧ ⟨data, r, c⟩ = M := by
  rw [ofFlat]
  split_ifs with hsides
  · cases times r c with
    | error e => simp
    | ok size =>
      simp only [Checked.ok_bind, Checked.pure_eq_ok, Except.ok.injEq]
      split_ifs with hs <;> simp [hs, hsides]
  · simp [hsides]

theorem zeros_eq_ok_iff [Zero α] :
    zeros r c = .ok M ↔
      (0 < r ∧ 0 < c) ∧ ∃ size, times r c = .ok size ∧ ⟨Array.replicate size 0, r, c⟩ = M := by
  rw [zeros]
  split_ifs with hsides
  · cases times r c with
    | error e => simp
    | ok size => simp [hsides]
  · simp [hsides]

end Stored

namespace Mat

variable {m n k : Nat}

theorem flatten_rows (A : Mat α m n) :
    (Array.ofFn fun i => (A.row i).toArray).flatten = A.flat := by
  rw [Array.flatten, foldl_ofFn]
  induction m with
  | zero =>
    apply flat_eq_of_getElem
    · rw [Fin.foldl_zero, Nat.zero_mul]
      rfl
    · intro i
      exact i.elim0
  | succ m ih =>
    have hinit := ih (ofFn fun i j => A i.castSucc j)
    have hrow (i : Fin m) : (ofFn fun i j => A i.castSucc j : Mat α m n).row i =
        A.row i.castSucc := by
      ext j
      simp
    simp only [hrow] at hinit
    rw [Fin.foldl_succ_last, hinit]
    apply flat_eq_of_getElem
    · rw [Array.size_append, size_flat, Vec.size_toArray, Nat.succ_mul]
    · intro i j hp
      rw [Array.getElem_append]
      split_ifs with h
      · have hi : i.val < m := by
          rw [size_flat] at h
          by_contra hle
          have := Nat.mul_le_mul_right n (not_lt.mp hle)
          omega
        rw [getElem_flat _ ⟨i, hi⟩ j, entry_ofFn]
        rfl
      · have hi : i.val = m := by
          rw [size_flat] at h
          by_contra hne
          have hlt := i.isLt
          exact h (place_lt (⟨i.val, by omega⟩ : Fin m) j)
        have hplace : i.val * n + j.val - m * n = j := by rw [hi, Nat.add_sub_cancel_left]
        simp only [size_flat, hplace]
        rw [(A.row (Fin.last m)).getElem_toArray j, row_apply]
        congr 1
        exact Fin.ext hi.symm

theorem flat_map {β : Type} (f : α → β) (A : Mat α m n) : (A.map f).flat = A.flat.map f := by
  symm
  apply flat_eq_of_getElem
  · rw [Array.size_map, size_flat]
  · intro i j hp
    rw [Array.getElem_map, getElem_flat, map_apply]

theorem map_stored {β : Type} (f : α → β) (A : Mat α m n) :
    A.stored.map f = (A.map f).stored := by
  rw [Stored.map, stored, stored, flat_map]

theorem cast_stored {m' n' : Nat} (hm : m = m') (hn : n = n') (A : Mat α m n) :
    (A.cast hm hn).stored = A.stored := by
  subst hm hn
  rw [cast_rfl]

theorem flat_zero [Zero α] [One α] : (zero m n : Mat α m n).flat = Array.replicate (m * n) 0 := by
  symm
  apply flat_eq_of_getElem
  · exact Array.size_replicate
  · intro i j hp
    rw [Array.getElem_replicate, zero_apply]

theorem zero_stored [Zero α] [One α] :
    (⟨Array.replicate (m * n) 0, m, n⟩ : Stored α) = (zero m n : Mat α m n).stored := by
  rw [stored, flat_zero]

section

variable [SizeArithmetic]

theorem zeros_stored [Zero α] [One α] (hm : 0 < m) (hn : 0 < n) (h : Fits m n) :
    Stored.zeros m n = .ok (zero m n : Mat α m n).stored := by
  rw [Stored.zeros, if_pos ⟨hm, hn⟩, times_of_fits h, Checked.ok_bind, ← zero_stored]
  rfl

theorem identity_stored [Zero α] [One α] (hn : 0 < n) (h : Fits n n) :
    Stored.identity n = .ok (identity n : Mat α n n).stored := by
  rw [Stored.identity, zeros_stored hn hn h, Checked.ok_bind]
  apply forRange_all_rows
  intro i
  rw [write_stored, setEntry_blendRows]
  · rw [identity_apply, if_pos rfl]
  · intro c hc
    rw [zero_apply, identity_apply, if_neg hc.symm]

theorem ofDiagonal_stored [Zero α] [One α] (hn : 0 < n) (h : Fits n n) (d : Vec α n) :
    Stored.ofDiagonal d.toArray = .ok (ofDiagonal d).stored := by
  rw [Stored.ofDiagonal, Vec.size_toArray, zeros_stored hn hn h, Checked.ok_bind]
  apply forRange_all_rows
  intro i
  rw [Vec.fetch_toArray, Checked.ok_bind, write_stored, setEntry_blendRows]
  · rw [ofDiagonal_apply, if_pos rfl]
  · intro c hc
    rw [zero_apply, ofDiagonal_apply, if_neg hc.symm]

omit [SizeArithmetic] in
theorem forRange_ofColumns [Zero α] [One α] {columns : Array (Array α)} {A : Mat α m n}
    (h : ∀ j : Fin n, fetch columns j = .ok (A.col j).toArray) :
    forRange 0 n (fun j (N : Stored α) => do
      let column ← fetch columns j
      forRange 0 column.size (fun i N => do N.write i j (← fetch column i)) N)
      (zero m n : Mat α m n).stored = (.ok A.stored : Checked (Stored α)) := by
  apply forRange_all_columns
  intro j
  rw [h, Checked.ok_bind, Vec.size_toArray]
  apply forRange_all_rows
  intro i
  rw [Vec.fetch_toArray, Checked.ok_bind, write_stored, setEntry_blendRows]
  · rw [blend_of_lt (Nat.lt_succ_self _), col_apply]
  · intro j' hj'
    exact (blend_succ_of_ne (Fin.val_ne_of_ne hj')).symm

theorem ofColumns_stored [Zero α] [One α] (hm : 0 < m) (hn : 0 < n) (h : Fits m n)
    (A : Mat α m n) :
    Stored.ofColumns (Array.ofFn fun j => (A.col j).toArray) = .ok A.stored := by
  have hrect : Rectangular (Array.ofFn fun j => (A.col j).toArray) m :=
    ⟨by rwa [Array.size_ofFn], hm, by simp⟩
  rw [Stored.ofColumns, checkRows_eq_ok hrect]
  simp only [Checked.lift_error_ok, Checked.ok_bind, Array.size_ofFn, times_of_fits h, zero_stored]
  apply forRange_ofColumns
  intro j
  rw [fetch, dif_pos (by simp), Array.getElem_ofFn]

theorem transpose_stored [Zero α] [One α] (hm : 0 < m) (hn : 0 < n) (h : Fits m n)
    (A : Mat α m n) :
    A.stored.transpose = .ok A.transpose.stored := by
  rw [Stored.transpose, height_stored, width_stored, zeros_stored hn hm h.symm, Checked.ok_bind]
  apply forRange_all_columns
  intro r
  apply forRange_all_rows
  intro c
  rw [read_stored, Checked.ok_bind, setEntry_stored, setEntry_blendRows]
  · rw [blend_of_lt (Nat.lt_succ_self _), transpose_apply]
  · intro r' hr'
    exact (blend_succ_of_ne (Fin.val_ne_of_ne hr')).symm

theorem ofFlat_flat (hm : 0 < m) (hn : 0 < n) (h : Fits m n) (A : Mat α m n) :
    Stored.ofFlat A.flat m n = .ok A.stored := by
  rw [Stored.ofFlat, if_pos ⟨hm, hn⟩, times_of_fits h, Checked.ok_bind, if_pos A.size_flat.symm]
  rfl

end

theorem side_stored (A : Mat α n n) : A.stored.side = .ok n := if_pos rfl

variable [Scalar α]

theorem mulVec_stored (hn : 0 < n) (A : Mat α m n) (x : Vec α n) :
    A.stored.mulVec x.toArray = .ok (A.mulVec x).toArray := by
  have hrows : ((List.finRange m).map fun i => (A.row i).toArray).mapM
      (fun row => (liftM (DenseVector.dot row x.toArray) : Checked α)) =
      .ok ((List.finRange m).map fun i => (A.row i).dot x) := by
    rw [List.mapM_map]
    apply mapM_eq_ok
    intro i _
    rw [Function.comp_apply, DenseVector.dot_toArray hn, Checked.lift_error_ok]
  rw [Stored.mulVec, DenseVector.check_toArray hn, Checked.lift_error_ok, Checked.ok_bind,
    if_pos (width_stored A), rows_stored _ hn, Checked.ok_bind, hrows, Checked.ok_bind,
    Checked.pure_eq_ok, mulVec, Vec.toArray_ofFn, ← List.toArray_ofFn, List.ofFn_eq_map]

theorem mulEntry_stored (A : Mat α m k) (B : Mat α k n) (i : Fin m) (j : Fin n) :
    forRange 0 k (fun p s => do
      return s + (← A.stored.read i p) * (← B.stored.read p j)) 0 = .ok ((A.mul B) i j) := by
  rw [mul_apply]
  apply forRange_eq_foldl id
  intro p s
  rw [read_stored, Checked.ok_bind, read_stored]
  rfl

theorem mul_stored [SizeArithmetic] (hm : 0 < m) (hn : 0 < n) (h : Fits m n) (A : Mat α m k)
    (B : Mat α k n) :
    A.stored.mul B.stored = .ok (A.mul B).stored := by
  have hloops : forRange 0 m (fun i P => forRange 0 n (fun j (P : Stored α) => do
      let entry ← forRange 0 k (fun p s => do
        return s + (← A.stored.read i p) * (← B.stored.read p j)) 0
      P.write i j entry) P) (zero m n : Mat α m n).stored = .ok (A.mul B).stored := by
    apply forRange_all_rows
    intro i
    apply forRange_all_columns
    intro j
    rw [mulEntry_stored, Checked.ok_bind, write_stored, setEntry_blendColumns]
    · rw [blend_of_lt (Nat.lt_succ_self _)]
    · intro r hr
      exact (blend_succ_of_ne (Fin.val_ne_of_ne hr)).symm
  rw [Stored.mul, if_pos ((height_stored B).trans (width_stored A).symm)]
  simp only [height_stored, width_stored, times_of_fits h, zero_stored, hloops, Checked.ok_bind]
  exact ofFlat_flat hm hn h _

theorem trace_stored (A : Mat α n n) : A.stored.trace = .ok A.trace := by
  rw [Stored.trace, side_stored, Checked.ok_bind, diagonal_stored_square, Checked.ok_bind,
    total_toArray]
  exact congrArg (fun f => Except.ok (sum f)) (funext fun i => Vec.entry_ofFn _ i)

end Mat

namespace DenseMatrix

def stored (A : DenseMatrix α) : Stored α := A.entries.stored

theorem data_stored (A : DenseMatrix α) : A.stored.data = A.toFlat := A.entries.flatten_rows.symm

end DenseMatrix

namespace Stored

variable {M : Stored α}

/-- There are a row and a column, and as many entries as the sides say. -/
structure WellFormed (M : Stored α) : Prop where
  height_pos : 0 < M.height
  width_pos : 0 < M.width
  size_data : M.data.size = M.height * M.width

/-- The well-formed storages are those of the dense matrices. -/
theorem wellFormed_iff : M.WellFormed ↔ ∃ A : DenseMatrix α, A.stored = M := by
  constructor
  · intro h
    obtain ⟨data, r, c⟩ := M
    have hlt (i : Fin r) (j : Fin c) : i * c + j < data.size :=
      h.size_data ▸ DenseMatrix.flat_lt i j
    refine ⟨⟨r, c, h.height_pos, h.width_pos, .ofFn fun i j =>
      have := hlt i j
      data[i * c + j]⟩, ?_⟩
    rw [DenseMatrix.stored, Mat.stored]
    congr 1
    symm
    apply Mat.flat_eq_of_getElem _ h.size_data
    intro i j hp
    rw [Mat.entry_ofFn]
  · rintro ⟨A, rfl⟩
    exact ⟨A.height_pos, A.width_pos, A.entries.size_flat⟩

section

variable [SizeArithmetic] {r c : Nat}

theorem wellFormed_ofFlat_iff {data : Array α} (h : ofFlat data r c = .ok M) :
    M.WellFormed ↔ Fits r c := by
  obtain ⟨⟨hr, hc⟩, htimes, rfl⟩ := ofFlat_eq_ok_iff.mp h
  rw [← eq_mul_iff_fits htimes]
  exact ⟨fun h => h.size_data, fun h => ⟨hr, hc, h⟩⟩

theorem wellFormed_zeros_iff [Zero α] (h : zeros r c = .ok M) : M.WellFormed ↔ Fits r c := by
  obtain ⟨⟨hr, hc⟩, size, htimes, rfl⟩ := zeros_eq_ok_iff.mp h
  rw [← eq_mul_iff_fits htimes]
  exact ⟨fun h => Array.size_replicate.symm.trans h.size_data,
    fun h => ⟨hr, hc, Array.size_replicate.trans h⟩⟩

end

end Stored

namespace DenseMatrix

/-- The answer of an operation, as it is stored. -/
def storing (x : Except Error (DenseMatrix α)) : Checked (Stored α) :=
  liftM (x.map DenseMatrix.stored)

@[simp] theorem storing_ok (A : DenseMatrix α) : storing (.ok A) = .ok A.stored := rfl

section

variable [sizes : SizeArithmetic]

theorem ofFlat_stored (data : Array α) {r c : Nat} (h : Fits r c) :
    Stored.ofFlat data r c = storing (ofFlat data r c) := by
  rw [Stored.ofFlat, ofFlat]
  split_ifs with hsides hs
  · rw [times_of_fits h, Checked.ok_bind, if_pos hs, storing_ok, stored, Mat.stored]
    simp only [Checked.pure_eq_ok]
    congr 2
    apply Mat.flat_eq_of_getElem _ hs.symm
    intro i j hp
    rw [Mat.entry_ofFn]
  · rw [times_of_fits h, Checked.ok_bind, if_neg hs]
    rfl
  · rfl

theorem ofRows_stored {rows : Array (Array α)}
    (h : ∀ A, ofRows rows = .ok A → Fits A.height A.width) :
    Stored.ofRows rows = storing (ofRows rows) := by
  rw [ofRows] at h
  rw [Stored.ofRows, ofRows]
  cases hrows : checkRows rows with
  | error e => rfl
  | ok w =>
    obtain ⟨width, hrect⟩ := w
    have hfits : Fits rows.size width := h _ (by rw [hrows]; rfl)
    simp only [Checked.lift_error_ok, Checked.ok_bind, times_of_fits hfits, Checked.pure_eq_ok,
      storing_ok, stored, Mat.stored, ← Mat.flatten_rows]
    congr 3
    apply Array.ext
    · rw [Array.size_ofFn]
    · intro i hi hi'
      rw [Array.getElem_ofFn]
      apply Array.ext
      · rw [Vec.size_toArray]
        exact hrect.size_row ⟨i, hi⟩
      · intro j hj hj'
        rw [Vec.getElem_toArray _ ⟨j, by simpa using hj'⟩ hj', Mat.row_apply, Mat.entry_ofFn]
        rfl

variable [Zero α] [One α]

theorem zeros_stored {r c : Nat} (h : r * c < UInt64.size) :
    Stored.zeros r c = ((zeros r c).map stored : Except Misuse (Stored α)) := by
  rw [zeros]
  split_ifs with hsides
  · exact Mat.zeros_stored hsides.1 hsides.2 (.inr h)
  · exact if_neg hsides

omit [One α] in
/-- Without checks, zeros that are too many come with an array in which the row that is named is
missing. -/
theorem exists_row_eq_error (hw : sizes = .wrapping) {r c : Nat}
    (hr : 0 < r) (hc : 0 < c) (h : UInt64.size ≤ r * c) :
    ∃ M k, Stored.zeros r c = (.ok M : Checked (Stored α)) ∧
      (zeros r c : Except Misuse (DenseMatrix α)) = .error (.rowOutOfBounds k r) ∧ k < r ∧
      M.row k = .error (.fault (.range (k * c) (k * c + c) M.data.size)) := by
  have hlt : r * c % UInt64.size < r * c := (Nat.mod_lt _ (by decide)).trans_le h
  refine ⟨⟨Array.replicate (r * c % UInt64.size) 0, r, c⟩, r * c % UInt64.size / c, ?_, ?_, ?_, ?_⟩
  · exact Stored.zeros_eq_ok_iff.mpr ⟨⟨hr, hc⟩, _, times_wrapping hw r c, rfl⟩
  · rw [zeros, dif_pos ⟨hr, hc⟩, if_neg (not_lt.mpr h)]
  · exact Nat.div_lt_of_lt_mul (Nat.mul_comm r c ▸ hlt)
  · apply if_neg
    rintro ⟨_, hle⟩
    rw [Array.size_replicate] at hle
    exact absurd hle (not_le.mpr (Nat.lt_div_mul_add hc))

theorem ofColumns_stored {columns : Array (Array α)}
    (h : ∀ A, ofColumns columns = .ok A → Fits A.height A.width) :
    Stored.ofColumns columns = storing (ofColumns columns) := by
  rw [ofColumns] at h
  rw [Stored.ofColumns, ofColumns]
  cases hcolumns : checkRows columns with
  | error e => rfl
  | ok w =>
    obtain ⟨height, hrect⟩ := w
    have hfits : Fits height columns.size := h _ (by rw [hcolumns]; rfl)
    simp only [Checked.lift_error_ok, Checked.ok_bind, times_of_fits hfits, Checked.pure_eq_ok,
      storing_ok, stored, Mat.zero_stored]
    apply Mat.forRange_ofColumns
    intro j
    rw [fetch, dif_pos j.isLt]
    congr 1
    apply Array.ext
    · rw [Vec.size_toArray]
      exact hrect.size_row j
    · intro i hi hi'
      rw [Vec.getElem_toArray _ ⟨i, by simpa using hi'⟩ hi', Mat.col_apply, Mat.entry_ofFn]
      rfl

end

end DenseMatrix

end DenseLinear
