import DenseLinear.Mat.RowOps
import DenseLinear.Proofs.Storage.Flat

/-!
# Access to stored matrices

A row operation is a loop over the columns. In between, the matrix is new in the columns that the
loop has passed and old in the others.
-/

namespace DenseLinear

variable {α : Type}

namespace Mat

variable {m n : Nat} (A B : Mat α m n) (i : Fin m) (j : Fin n)

@[simp] theorem read_stored : A.stored.read i j = .ok (A i j) := A.fetch_flat i j

@[simp] theorem write_stored (a : α) : A.stored.write i j a = .ok (A.setEntry i j a).stored := by
  rw [Stored.write, data_stored, width_stored, store_flat]
  rfl

@[simp] theorem entry_stored : A.stored.entry i j = .ok (A i j) := by
  rw [Stored.entry, if_pos ⟨i.isLt, j.isLt⟩, read_stored]

@[simp] theorem setEntry_stored (a : α) :
    A.stored.setEntry i j a = .ok (A.setEntry i j a).stored := by
  rw [Stored.setEntry, if_pos ⟨i.isLt, j.isLt⟩, write_stored]

@[simp] theorem row_stored : A.stored.row i = .ok (A.row i).toArray := A.slice_flat i

@[simp] theorem column_stored : A.stored.column j = .ok (A.col j).toArray := by
  rw [Stored.column, width_stored, if_pos j.isLt, col, Vec.toArray_ofFn]
  exact build_eq_ok fun i => A.read_stored i j

theorem columns_stored : A.stored.columns = .ok (Array.ofFn fun j => (A.col j).toArray) :=
  build_eq_ok fun j => A.column_stored j

theorem rows_stored (hn : 0 < n) :
    A.stored.rows = .ok ((List.finRange m).map fun i => (A.row i).toArray) := by
  rw [Stored.rows, width_stored, if_neg hn.ne', data_stored, size_flat, Nat.mul_div_cancel m hn,
    ← List.map_coe_finRange_eq_range, List.map_map]
  congr 1
  apply List.map_congr_left
  intro i _
  have hslice := A.slice_flat i
  unfold slice at hslice
  split at hslice
  · exact Except.ok.inj hslice
  · cases hslice

theorem diagonal_stored_square (A : Mat α n n) :
    A.stored.diagonal = .ok (Vec.ofFn fun i => A i i).toArray := by
  rw [Vec.toArray_ofFn, Stored.diagonal, height_stored, width_stored, Nat.min_self]
  exact build_eq_ok fun i => A.read_stored i i

/-- The entries of `B` where `place` is below `k`, and those of `A` elsewhere. -/
def blend (place : Fin m → Fin n → Nat) (k : Nat) : Mat α m n :=
  ofFn fun i j => if place i j < k then B i j else A i j

abbrev blendColumns (k : Nat) : Mat α m n := A.blend B (fun _ j => j) k

abbrev blendRows (k : Nat) : Mat α m n := A.blend B (fun i _ => i) k

section

variable {A B i j} {place : Fin m → Fin n → Nat} {k : Nat}

theorem blend_of_le (h : k ≤ place i j) : (A.blend B place k) i j = A i j := by
  rw [blend, entry_ofFn, if_neg (not_lt.mpr h)]

theorem blend_of_lt (h : place i j < k) : (A.blend B place k) i j = B i j := by
  rw [blend, entry_ofFn, if_pos h]

theorem blend_eq (h : A i j = B i j) : (A.blend B place k) i j = A i j := by
  rw [blend, entry_ofFn, h, ite_self]

theorem blend_succ_of_ne (h : place i j ≠ k) :
    (A.blend B place (k + 1)) i j = (A.blend B place k) i j := by
  rcases lt_or_gt_of_ne h with hlt | hgt
  · rw [blend_of_lt (by omega), blend_of_lt hlt]
  · rw [blend_of_le (by omega), blend_of_le hgt.le]

theorem setEntry_blend {a : α} (ha : B i j = a)
    (h : ∀ r c, place r c = place i j → ¬(r = i ∧ c = j) → A r c = B r c) :
    (A.blend B place (place i j)).setEntry i j a = A.blend B place (place i j + 1) := by
  ext r c
  rw [setEntry_apply]
  split_ifs with hrc
  · obtain ⟨rfl, rfl⟩ := hrc
    rw [blend_of_lt (Nat.lt_succ_self _), ha]
  · by_cases hplace : place r c = place i j
    · rw [blend_of_le hplace.ge, blend_of_lt (by omega), h r c hplace hrc]
    · rw [blend_succ_of_ne hplace]

end

variable {A B} {ε : Type} {body : Nat → Stored α → Except ε (Stored α)} {start stop : Nat}

theorem forRange_blend {place : Fin m → Fin n → Nat} (hstart : start ≤ stop)
    (hsame : ∀ i j, place i j < start ∨ stop ≤ place i j → A i j = B i j)
    (hbody : ∀ k : Fin stop, start ≤ k →
      body k (A.blend B place k).stored = .ok (A.blend B place (k + 1)).stored) :
    forRange start stop body A.stored = .ok B.stored := by
  have hfirst : A.blend B place start = A := by
    ext i j
    rcases lt_or_ge (place i j) start with h | h
    · exact blend_eq (hsame i j (.inl h))
    · exact blend_of_le h
  have hlast : A.blend B place stop = B := by
    ext i j
    rcases lt_or_ge (place i j) stop with h | h
    · exact blend_of_lt h
    · rw [blend_of_le h, hsame i j (.inr h)]
  have h := forRange_eq_ok (fun k _ => (A.blend B place k).stored) hstart hbody
  rwa [hfirst, hlast] at h

/-- A loop over some of the columns, when the others stay as they are. -/
theorem forRange_columns (hstart : start ≤ stop) (hstop : stop ≤ n)
    (hsame : ∀ i (j : Fin n), j.val < start ∨ stop ≤ j.val → A i j = B i j)
    (hbody : ∀ k : Fin n, start ≤ k → k < stop →
      body k (A.blendColumns B k).stored = .ok (A.blendColumns B (k + 1)).stored) :
    forRange start stop body A.stored = .ok B.stored :=
  forRange_blend hstart hsame fun k hk => hbody (k.castLE hstop) hk k.isLt

theorem forRange_rows (hstart : start ≤ stop) (hstop : stop ≤ m)
    (hsame : ∀ (i : Fin m) j, i.val < start ∨ stop ≤ i.val → A i j = B i j)
    (hbody : ∀ k : Fin m, start ≤ k → k < stop →
      body k (A.blendRows B k).stored = .ok (A.blendRows B (k + 1)).stored) :
    forRange start stop body A.stored = .ok B.stored :=
  forRange_blend hstart hsame fun k hk => hbody (k.castLE hstop) hk k.isLt

theorem forRange_all_columns
    (hbody : ∀ k : Fin n,
      body k (A.blendColumns B k).stored = .ok (A.blendColumns B (k + 1)).stored) :
    forRange 0 n body A.stored = .ok B.stored :=
  forRange_columns (Nat.zero_le n) le_rfl (by omega) fun k _ _ => hbody k

theorem forRange_all_rows
    (hbody : ∀ k : Fin m, body k (A.blendRows B k).stored = .ok (A.blendRows B (k + 1)).stored) :
    forRange 0 m body A.stored = .ok B.stored :=
  forRange_rows (Nat.zero_le m) le_rfl (by omega) fun k _ _ => hbody k

/-- One more column, if it differs in one row only. -/
theorem setEntry_blendColumns {a : α} (ha : B i j = a) (h : ∀ r, r ≠ i → A r j = B r j) :
    (A.blendColumns B j).setEntry i j a = A.blendColumns B (j + 1) := by
  apply setEntry_blend ha
  intro r c hc hrc
  obtain rfl : c = j := Fin.ext hc
  exact h r fun hr => hrc ⟨hr, rfl⟩

theorem setEntry_blendRows {a : α} (ha : B i j = a) (h : ∀ c, c ≠ j → A i c = B i c) :
    (A.blendRows B i).setEntry i j a = A.blendRows B (i + 1) := by
  apply setEntry_blend ha
  intro r c hr hrc
  obtain rfl : r = i := Fin.ext hr
  exact h c fun hc => hrc ⟨rfl, hc⟩

@[simp] theorem swapAt_flat (A : Mat α m n) (a b : Fin m) (c d : Fin n) :
    swapAt A.flat (a * n + c) (b * n + d) =
      .ok ((A.setEntry a c (A b d)).setEntry b d (A a c)).flat := by
  simp [swapAt]

theorem swapRows_stored (A : Mat α m n) (a b : Fin m) :
    A.stored.swapRows a b = .ok (A.swapRows a b).stored := by
  rw [Stored.swapRows, width_stored]
  split_ifs with hab
  · rw [Fin.ext hab, swapRows_self]
  · apply forRange_all_columns
    intro k
    rw [data_stored, width_stored, swapAt_flat]
    simp only [Checked.ok_bind, Checked.pure_eq_ok, Except.ok.injEq]
    congr 2
    ext r c
    have hne : a ≠ b := fun h => hab (congrArg Fin.val h)
    rcases eq_or_ne c k with rfl | hc
    · have hold (p : Fin m) : (A.blendColumns (A.swapRows a b) c) p c = A p c :=
        blend_of_le le_rfl
      have hnew : (A.blendColumns (A.swapRows a b) (c + 1)) r c = (A.swapRows a b) r c :=
        blend_of_lt (Nat.lt_succ_self _)
      simp only [setEntry_apply, hold, hnew, swapRows_apply]
      by_cases hb : r = b
      · simp [hb, hne.symm]
      · simp [hb]
    · rw [setEntry_apply, if_neg fun h => hc h.2, setEntry_apply, if_neg fun h => hc h.2,
        blend_succ_of_ne (Fin.val_ne_of_ne hc)]

theorem divRow_stored [Div α] (A : Mat α m n) (i : Fin m) (d : α) :
    A.stored.divRow i d = .ok (A.divRow i d).stored := by
  rw [Stored.divRow, row_stored, Checked.ok_bind, width_stored]
  apply forRange_all_columns
  intro k
  rw [read_stored, Checked.ok_bind, write_stored, blend_of_le le_rfl, setEntry_blendColumns]
  · rw [divRow_apply, if_pos rfl]
  · intro r hr
    rw [divRow_apply, if_neg hr]

theorem subRowMultiple_stored [Sub α] [Mul α] (A : Mat α m n) (target source : Fin m)
    (factor : α) :
    A.stored.subRowMultiple target source factor =
      .ok (A.eliminate source (· = target) fun _ => factor).stored := by
  rw [Stored.subRowMultiple, width_stored]
  apply forRange_all_columns
  intro k
  rw [read_stored, Checked.ok_bind, read_stored, Checked.ok_bind, write_stored,
    blend_of_le le_rfl, blend_of_le le_rfl, setEntry_blendColumns]
  · rw [eliminate_apply, if_pos rfl]
  · intro r hr
    rw [eliminate_apply, if_neg hr]

theorem setRowStart_stored (A : Mat α m n) (i : Fin m) {k : Nat} (hk : k ≤ n) (x : Vec α k) :
    A.stored.setRowStart i k x.toArray =
      .ok (A.setRow i fun c => if h : c.val < k then x ⟨c, h⟩ else A i c).stored := by
  have hslice : slice (A.row i).toArray 0 k = .ok ((A.row i).toArray.extract 0 k) := by
    rw [slice, if_pos ⟨Nat.zero_le k, by rwa [Vec.size_toArray]⟩]
  rw [Stored.setRowStart, row_stored, Checked.ok_bind, hslice, Checked.ok_bind,
    if_pos x.size_toArray]
  apply forRange_columns (Nat.zero_le k) hk
  · intro r j hj
    rw [setRow_apply, dif_neg (by omega)]
    split_ifs with hr
    · rw [hr]
    · rfl
  · intro c _ hc
    have hx : fetch x.toArray c.val = .ok (x ⟨c, hc⟩) := x.fetch_toArray ⟨c, hc⟩
    rw [hx, Checked.ok_bind, write_stored, setEntry_blendColumns]
    · rw [setRow_apply, if_pos rfl, dif_pos hc]
    · intro r hr
      rw [setRow_apply, if_neg hr]

end Mat

end DenseLinear
