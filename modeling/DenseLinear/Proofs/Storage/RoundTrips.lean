import DenseLinear.Proofs.Storage.Dense

/-!
# Matrices and lists of vectors

A list of vectors is a matrix by rows or by columns if there is a first vector, if that has an entry
and if all have its length. Reading a matrix by rows, by columns or as one array, and building one
from what was read, leads back to where it started. So all ways to read an entry agree, and an entry
that is written is read again, as are the old ones in all other places.
-/

namespace DenseLinear

variable {α : Type}

/-- There is a first vector, it has an entry, and all vectors have its length. -/
def SameLengths (vectors : Array (Array α)) : Prop :=
  ∃ first, vectors[0]? = some first ∧ 0 < first.size ∧ ∀ v ∈ vectors, v.size = first.size

theorem exists_rectangular_iff {vectors : Array (Array α)} :
    (∃ width, Rectangular vectors width) ↔ SameLengths vectors := by
  constructor
  · rintro ⟨width, hrows, hwidth, hsize⟩
    refine ⟨vectors[0], Array.getElem?_eq_getElem hrows, ?_, ?_⟩
    · exact hwidth.trans_eq (hsize ⟨0, hrows⟩).symm
    · intro v hv
      obtain ⟨i, hi, rfl⟩ := Array.mem_iff_getElem.mp hv
      exact (hsize ⟨i, hi⟩).trans (hsize ⟨0, hrows⟩).symm
  · rintro ⟨first, hfirst, hwidth, hsize⟩
    obtain ⟨hrows, rfl⟩ := Array.getElem?_eq_some_iff.mp hfirst
    exact ⟨vectors[0].size, hrows, hwidth, fun i => hsize _ (Array.getElem_mem i.isLt)⟩

namespace DenseMatrix

variable {A B : DenseMatrix α} {vectors : Array (Array α)}

theorem rows_transpose (A : DenseMatrix α) : A.transpose.rows = A.columns := by
  simp only [rows, columns, transpose]
  congr 1
  funext j
  rw [Vec.toArray_inj]
  ext i
  simp

theorem columns_transpose (A : DenseMatrix α) : A.transpose.columns = A.rows := by
  rw [← rows_transpose, transpose_transpose]

/-- The vectors are the columns of the transpose of the matrix whose rows they are. -/
theorem ofColumns_eq (vectors : Array (Array α)) :
    ofColumns vectors = (ofRows vectors).map transpose := by
  rw [ofColumns, ofRows]
  cases checkRows vectors with
  | error e => rfl
  | ok w =>
    simp only [Checked.ok_bind, Checked.pure_eq_ok, Except.map, transpose, Except.ok.injEq]
    congr 1
    ext i j
    simp

theorem exists_ofRows_iff : (∃ A, ofRows vectors = .ok A) ↔ SameLengths vectors := by
  rw [← exists_rectangular_iff]
  constructor
  · rintro ⟨A, hA⟩
    rw [ofRows] at hA
    obtain ⟨⟨width, h⟩, _, _⟩ := bind_eq_ok.mp hA
    exact ⟨width, h⟩
  · rintro ⟨width, h⟩
    rw [ofRows, checkRows_eq_ok h]
    exact ⟨_, rfl⟩

theorem exists_ofColumns_iff : (∃ A, ofColumns vectors = .ok A) ↔ SameLengths vectors := by
  rw [← exists_ofRows_iff, ofColumns_eq]
  cases ofRows vectors <;> simp [Except.map]

theorem rows_of_ofRows (h : ofRows vectors = .ok A) : A.rows = vectors := by
  rw [ofRows] at h
  obtain ⟨⟨width, hrect⟩, _, hA⟩ := bind_eq_ok.mp h
  cases hA
  apply Array.ext
  · exact Array.size_ofFn
  · intro i hi hi'
    simp only [rows, Array.getElem_ofFn]
    apply Array.ext
    · rw [Vec.size_toArray]
      exact (hrect.size_row ⟨i, hi'⟩).symm
    · intro j hj hj'
      rw [Vec.getElem_toArray _ ⟨j, by simpa using hj⟩ hj, Mat.row_apply, Mat.entry_ofFn]
      rfl

theorem columns_of_ofColumns (h : ofColumns vectors = .ok A) : A.columns = vectors := by
  rw [ofColumns_eq] at h
  cases hrows : ofRows vectors with
  | error e =>
    rw [hrows] at h
    cases h
  | ok B =>
    rw [hrows] at h
    cases h
    rw [columns_transpose, rows_of_ofRows hrows]

theorem sameLengths_rows (A : DenseMatrix α) : SameLengths A.rows :=
  exists_rectangular_iff.mp
    ⟨A.width, by simpa [rows] using A.height_pos, A.width_pos, by simp [rows]⟩

/-- A matrix is known from its rows. -/
theorem eq_of_rows_eq (h : A.rows = B.rows) : A = B := by
  obtain ⟨m, n, hm, hn, S⟩ := A
  obtain ⟨m', n', hm', hn', T⟩ := B
  have hheight := congrArg Array.size h
  simp only [rows, Array.size_ofFn] at hheight
  subst hheight
  have hlists := congrArg Array.toList h
  simp only [rows, Array.toList_ofFn] at hlists
  have hrow (i : Fin m) : (S.row i).toArray = (T.row i).toArray :=
    congrFun (List.ofFn_injective hlists) i
  have hwidth := congrArg Array.size (hrow ⟨0, hm⟩)
  rw [Vec.size_toArray, Vec.size_toArray] at hwidth
  subst hwidth
  congr 1
  ext i j
  exact congrArg (fun x : Vec α n => x j) (Vec.toArray_inj.mp (hrow i))

theorem ofRows_rows (A : DenseMatrix α) : ofRows A.rows = .ok A := by
  obtain ⟨B, hB⟩ := exists_ofRows_iff.mpr A.sameLengths_rows
  rw [hB, eq_of_rows_eq (rows_of_ofRows hB)]

theorem ofColumns_columns (A : DenseMatrix α) : ofColumns A.columns = .ok A := by
  rw [ofColumns_eq, ← rows_transpose, ofRows_rows]
  exact congrArg Except.ok A.transpose_transpose

theorem ofFlat_toFlat (A : DenseMatrix α) : ofFlat A.toFlat A.height A.width = .ok A := by
  obtain ⟨m, n, hm, hn, S⟩ := A
  have hflat : (mk m n hm hn S).toFlat = S.flat := S.flatten_rows
  rw [ofFlat, dif_pos ⟨hm, hn⟩]
  simp only [hflat]
  rw [dif_pos S.size_flat.symm]
  congr 2
  ext i j
  rw [Mat.entry_ofFn]
  exact S.getElem_flat i j _

/-- The entry at `i`, `j` is the `j`-th of the `i`-th row, and missing if that is. -/
theorem get?_eq_rows (A : DenseMatrix α) (i j : Nat) :
    A.get? i j = A.rows[i]?.bind fun row => row[j]? := by
  rw [get?]
  by_cases hi : i < A.height
  · have hrow : A.rows[i]? = some (A.entries.row ⟨i, hi⟩).toArray := by
      simp [rows, hi]
    rw [hrow, Option.bind_some]
    by_cases hj : j < A.width
    · rw [dif_pos ⟨hi, hj⟩, Array.getElem?_eq_getElem (by rwa [Vec.size_toArray])]
      rfl
    · rw [dif_neg fun h => hj h.2, Array.getElem?_eq_none (by rw [Vec.size_toArray]; omega)]
  · have hrow : A.rows[i]? = none := by
      simp [rows, hi]
    rw [dif_neg fun h => hi h.1, hrow, Option.bind_none]

theorem get?_transpose (A : DenseMatrix α) (i j : Nat) : A.transpose.get? i j = A.get? j i := by
  simp only [get?, transpose, Mat.transpose_apply, and_comm]

theorem get?_eq_columns (A : DenseMatrix α) (i j : Nat) :
    A.get? i j = A.columns[j]?.bind fun column => column[i]? := by
  rw [← get?_transpose, get?_eq_rows, rows_transpose]

theorem get?_eq_toFlat (A : DenseMatrix α) (i j : Nat) (hj : j < A.width) :
    A.get? i j = A.toFlat[i * A.width + j]? := by
  have hflat : A.toFlat = A.entries.flat := A.entries.flatten_rows
  rw [hflat, get?]
  by_cases hi : i < A.height
  · have hplace : i * A.width + j < A.entries.flat.size := by
      rw [Mat.size_flat]
      exact flat_lt ⟨i, hi⟩ ⟨j, hj⟩
    rw [dif_pos ⟨hi, hj⟩, Array.getElem?_eq_getElem hplace]
    exact congrArg some (A.entries.getElem_flat ⟨i, hi⟩ ⟨j, hj⟩ hplace).symm
  · have hplace : A.entries.flat.size ≤ i * A.width + j := by
      rw [Mat.size_flat]
      exact Nat.le_add_right_of_le (Nat.mul_le_mul_right _ (not_lt.mp hi))
    rw [dif_neg fun h => hi h.1, Array.getElem?_eq_none hplace]

theorem isSome_get?_iff (A : DenseMatrix α) (i j : Nat) :
    (∃ x, A.get? i j = some x) ↔ i < A.height ∧ j < A.width := by
  rw [get?]
  split_ifs with h
  · exact ⟨fun _ => h, fun _ => ⟨_, rfl⟩⟩
  · simp [h]

theorem get?_set {i j : Nat} {x : α} (h : A.set i j x = .ok B) (r c : Nat) :
    B.get? r c = if r = i ∧ c = j then some x else A.get? r c := by
  rw [set] at h
  split_ifs at h with hbounds
  cases h
  simp only [get?, withEntries, Mat.setEntry_apply]
  grind

/-- What is read off a matrix builds it again, and all ways to read an entry agree. -/
structure ReadsBack (A : DenseMatrix α) : Prop where
  ofRows : ofRows A.rows = .ok A
  ofColumns : ofColumns A.columns = .ok A
  ofFlat : ofFlat A.toFlat A.height A.width = .ok A
  inBounds i j : (∃ x, A.get? i j = some x) ↔ i < A.height ∧ j < A.width
  get?_rows i j : A.get? i j = A.rows[i]?.bind fun row => row[j]?
  get?_columns i j : A.get? i j = A.columns[j]?.bind fun column => column[i]?
  get?_flat i j : j < A.width → A.get? i j = A.toFlat[i * A.width + j]?
  set i j x : i < A.height → j < A.width → ∃ B, A.set i j x = .ok B ∧
    ∀ r c, B.get? r c = if r = i ∧ c = j then some x else A.get? r c

theorem readsBack (A : DenseMatrix α) : A.ReadsBack where
  ofRows := A.ofRows_rows
  ofColumns := A.ofColumns_columns
  ofFlat := A.ofFlat_toFlat
  inBounds := A.isSome_get?_iff
  get?_rows := A.get?_eq_rows
  get?_columns := A.get?_eq_columns
  get?_flat := A.get?_eq_toFlat
  set _ _ _ hi hj := ⟨_, dif_pos ⟨hi, hj⟩, get?_set (dif_pos ⟨hi, hj⟩)⟩

/-- A matrix is known by its storage. -/
theorem stored_injective {A B : DenseMatrix α} (h : A.stored = B.stored) : A = B := by
  have hA := A.ofFlat_toFlat
  have hheight : A.height = B.height := congrArg Stored.height h
  have hwidth : A.width = B.width := congrArg Stored.width h
  rw [← A.data_stored, h, B.data_stored, hheight, hwidth, B.ofFlat_toFlat] at hA
  exact (Except.ok.inj hA).symm

theorem rows_stored (A : DenseMatrix α) : A.stored.rows = .ok A.rows.toList := by
  rw [rows, Array.toList_ofFn, List.ofFn_eq_map]
  exact A.entries.rows_stored A.width_pos

theorem entry_stored (A : DenseMatrix α) (i j : Nat) : A.stored.entry i j = liftM (A.entry i j) := by
  rw [entry, get?]
  split_ifs with h
  · exact A.entries.entry_stored ⟨i, h.1⟩ ⟨j, h.2⟩
  · exact if_neg h

theorem toFlat_set {i j : Nat} {x : α} (h : A.set i j x = .ok B) :
    B.toFlat = A.toFlat.setIfInBounds (i * A.width + j) x := by
  rw [set] at h
  split_ifs at h with hbounds
  cases h
  have hstore := A.entries.store_flat ⟨i, hbounds.1⟩ ⟨j, hbounds.2⟩ x
  rw [store] at hstore
  split_ifs at hstore with hplace
  rw [← data_stored, ← data_stored]
  exact (Except.ok.inj hstore).symm.trans (dif_pos hplace).symm

/-- The array in which a matrix is stored is read and written in the same way, and a write changes
one place of it. -/
structure StorageReadsBack (sizes : SizeArithmetic) (A : DenseMatrix α) : Prop where
  ofFlat : Stored.ofFlat A.stored.data A.stored.height A.stored.width = .ok A.stored
  data : A.stored.data = A.toFlat
  rows : A.stored.rows = .ok A.rows.toList
  columns : A.stored.columns = .ok A.columns
  entry i j : A.stored.entry i j = liftM (A.entry i j)
  setEntry i j x : A.stored.setEntry i j x = liftM ((A.set i j x).map stored)
  data_set i j x B : A.set i j x = .ok B →
    B.stored.data = A.stored.data.setIfInBounds (i * A.width + j) x

theorem storageReadsBack [sizes : SizeArithmetic] (A : DenseMatrix α) (h : Fits A.height A.width) :
    A.StorageReadsBack sizes where
  ofFlat := A.entries.ofFlat_flat A.height_pos A.width_pos h
  data := A.data_stored
  rows := A.rows_stored
  columns := A.entries.columns_stored
  entry := A.entry_stored
  setEntry := A.setEntry_stored
  data_set _ _ _ _ h := by
    rw [data_stored, data_stored, toFlat_set h]

theorem size_flatten_of_ofRows (h : ofRows vectors = .ok A) :
    vectors.flatten.size = A.height * A.width := by
  rw [← rows_of_ofRows h]
  exact (congrArg Array.size A.data_stored).symm.trans A.entries.size_flat

section

variable [SizeArithmetic] (h : IsSize vectors.flatten.size)
include h

/-- There is room for the matrix of vectors that are in memory already. -/
theorem ofRows_stored_of_isSize : Stored.ofRows vectors = storing (ofRows vectors) := by
  apply ofRows_stored
  intro A hA
  rwa [size_flatten_of_ofRows hA] at h

theorem ofColumns_stored_of_isSize [Zero α] [One α] :
    Stored.ofColumns vectors = storing (ofColumns vectors) := by
  apply ofColumns_stored
  intro B hB
  rw [ofColumns_eq] at hB
  cases hA : ofRows vectors with
  | error e =>
    rw [hA] at hB
    cases hB
  | ok A =>
    rw [hA] at hB
    cases hB
    rw [size_flatten_of_ofRows hA] at h
    exact Fits.symm h

end

/-- Vectors are rows or columns of a matrix exactly if there are some, of one positive length. They
are found again in it, and the one matrix is the transpose of the other. Every matrix is found again
from its rows, its columns and the array of its entries, in storage as far as the number of its
entries is a size. Where it is not, sides that are given with an array make no matrix, even if they
are accepted. -/
theorem round_trips {α : Type} [Zero α] [One α] :
    (∀ vectors : Array (Array α),
      ((∃ A, ofRows vectors = .ok A) ↔ SameLengths vectors) ∧
      ((∃ A, ofColumns vectors = .ok A) ↔ SameLengths vectors) ∧
      (∀ A, ofRows vectors = .ok A → A.rows = vectors ∧ ofColumns vectors = .ok A.transpose) ∧
      (∀ A, ofColumns vectors = .ok A → A.columns = vectors) ∧
      ∀ (_ : SizeArithmetic), IsSize vectors.flatten.size →
        Stored.ofRows vectors = storing (ofRows vectors) ∧
        Stored.ofColumns vectors = storing (ofColumns vectors)) ∧
    (∀ A : DenseMatrix α, A.ReadsBack ∧
      ∀ (sizes : SizeArithmetic), Fits A.height A.width → A.StorageReadsBack sizes) ∧
    ∀ (_ : SizeArithmetic) (data : Array α) (r c : Nat),
      (Fits r c → Stored.ofFlat data r c = storing (ofFlat data r c)) ∧
      ∀ M, Stored.ofFlat data r c = .ok M → ((∃ A : DenseMatrix α, A.stored = M) ↔ Fits r c) := by
  refine ⟨?_, fun A => ⟨A.readsBack, fun _ h => A.storageReadsBack h⟩, ?_⟩
  · intro vectors
    refine ⟨exists_ofRows_iff, exists_ofColumns_iff, ?_, fun A => columns_of_ofColumns,
      fun _ h => ⟨ofRows_stored_of_isSize h, ofColumns_stored_of_isSize h⟩⟩
    intro A hA
    refine ⟨rows_of_ofRows hA, ?_⟩
    rw [ofColumns_eq, hA]
    rfl
  · intro _ data r c
    exact ⟨ofFlat_stored data, fun M hM =>
      Stored.wellFormed_iff.symm.trans (Stored.wellFormed_ofFlat_iff hM)⟩

/-- Two entries pass for `2 ^ 63 + 1` rows of two, whose number of entries wraps around to two. Only
the first of the rows is there. -/
theorem rows_missing_of_wrapping :
    let M : Stored Float := ⟨#[1, 2], 2 ^ 63 + 1, 2⟩
    @Stored.ofFlat Float .wrapping #[1, 2] (2 ^ 63 + 1) 2 = .ok M ∧
      (1 < M.height ∧ 0 < M.width) ∧ M.entry 1 0 = .error (.fault (.index 2 2)) ∧
      M.rows = .ok [#[1, 2]] ∧ @Stored.ofRows Float .wrapping #[#[1, 2]] = .ok ⟨#[1, 2], 1, 2⟩ ∧
      M ≠ ⟨#[1, 2], 1, 2⟩ := by
  intro M
  refine ⟨rfl, by decide, rfl, by simp [M, Stored.rows], rfl, ?_⟩
  intro h
  exact absurd (congrArg Stored.height h) (by decide)

/-- Numbers of every kind, in two rows of three. -/
def scattered : Mat Float 2 3 := .ofFn ![![0 / 0, -0, 1 / 0], ![0, 0.1, -1 / 0]]

theorem round_trips_scattered :
    let vectors : Array (Array Float) := #[#[0 / 0, -0, 1 / 0], #[0, 0.1, -1 / 0]]
    let A : DenseMatrix Float := ⟨2, 3, Nat.two_pos, Nat.succ_pos 2, scattered⟩
    SameLengths vectors ∧ ofRows vectors = .ok A ∧ A.rows = vectors ∧
      ofColumns vectors = .ok A.transpose ∧ A.transpose.columns = vectors ∧
      @Stored.ofRows Float .wrapping vectors = .ok A.stored ∧
      A.stored.entry 1 2 = .ok (-1 / 0) ∧ @Stored.ofFlat Float .wrapping A.toFlat 2 3 = .ok A.stored ∧
      ∃ B, A.set 1 2 5 = .ok B ∧ B.get? 1 2 = some 5 ∧ B.get? 0 2 = A.get? 0 2 := by
  intro vectors A
  have hlengths : SameLengths vectors := ⟨#[0 / 0, -0, 1 / 0], rfl, by decide, by decide⟩
  have hA : ofRows vectors = .ok A := rfl
  obtain ⟨hvectors, hmatrices, _⟩ := round_trips (α := Float)
  obtain ⟨_, _, hrows, hcolumns, hstored⟩ := hvectors vectors
  obtain ⟨hread, htranspose⟩ := hrows A hA
  obtain ⟨hreads, hstorage⟩ := hmatrices A
  have hstorage := hstorage .wrapping (.inr (by decide))
  obtain ⟨B, hB, hget⟩ := hreads.set 1 2 5 (by decide) (by decide)
  refine ⟨hlengths, hA, hread, htranspose, hcolumns _ htranspose, ?_, hstorage.entry 1 2, ?_, B, hB,
    hget 1 2, hget 0 2⟩
  · rw [(hstored .wrapping (.inr (by decide))).1, hA]
    rfl
  · rw [← hstorage.data]
    exact hstorage.ofFlat

end DenseMatrix

end DenseLinear
