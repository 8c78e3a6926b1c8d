import DenseLinear.Dense.Access
import DenseLinear.Proofs.Storage.Checked
import DenseLinear.Storage.Access

/-!
# Matrices in storage

On the storage of a matrix every place of an entry exists, and reading and writing there is reading
and writing of entries. All places are below the number of entries, so they are sizes whenever that
is.
-/

namespace DenseLinear

section

variable {α : Type} {m n : Nat}

namespace Vec

@[simp] theorem fetch_toArray (x : Vec α n) (i : Fin n) : fetch x.toArray i = .ok (x i) := by
  rw [fetch, dif_pos (by simp)]
  rfl

@[simp] theorem store_toArray (x : Vec α n) (i : Fin n) (a : α) :
    store x.toArray i a = .ok (x.set i a).toArray := by
  rw [store, dif_pos (by simp)]
  rfl

theorem toArray_eq_ofFn (x : Vec α n) : x.toArray = Array.ofFn x.entry := by
  apply Array.ext
  · simp
  · intro i hi _
    rw [Array.getElem_ofFn]
    exact x.getElem_toArray ⟨i, by simpa using hi⟩ hi

theorem toArray_ofFn (f : Fin n → α) : (ofFn f).toArray = Array.ofFn f := by
  rw [toArray_eq_ofFn]
  congr 1
  funext i
  exact entry_ofFn f i

theorem toArray_replicate (a : α) : (replicate n a).toArray = Array.replicate n a := by
  rw [replicate, toArray_ofFn]
  apply Array.ext
  · simp
  · intro i _ _
    simp

theorem slice_before (x : Vec α n) (i : Fin n) :
    slice x.toArray 0 i = .ok (Vec.ofFn fun k => x (before i k)).toArray := by
  rw [slice, if_pos ⟨Nat.zero_le _, by simp⟩]
  congr 1
  apply Array.ext
  · simp
  · intro k hk hk'
    have hki : k < i := by simpa using hk'
    rw [Array.getElem_extract, getElem_toArray _ ⟨k, hki⟩ hk', entry_ofFn]
    simp only [Nat.zero_add]
    exact x.getElem_toArray (before i ⟨k, hki⟩) _

theorem slice_after (x : Vec α n) (i : Fin n) :
    slice x.toArray (i + 1) n = .ok (Vec.ofFn fun k => x (after i k)).toArray := by
  have hi := i.isLt
  rw [slice, if_pos ⟨hi, (x.size_toArray).ge⟩]
  congr 1
  apply Array.ext
  · simp
  · intro k hk hk'
    have hki : k < n - (i + 1) := by simpa using hk'
    rw [Array.getElem_extract, getElem_toArray _ ⟨k, hki⟩ hk', entry_ofFn]
    exact x.getElem_toArray (after i ⟨k, hki⟩) _

end Vec

namespace Mat

def flat (A : Mat α m n) : Array α := Array.ofFn fun p : Fin (m * n) => A p.divNat p.modNat

def stored (A : Mat α m n) : Stored α := ⟨A.flat, m, n⟩

variable (A : Mat α m n) (i : Fin m) (j : Fin n)

@[simp] theorem data_stored : A.stored.data = A.flat := rfl

@[simp] theorem height_stored : A.stored.height = m := rfl

@[simp] theorem width_stored : A.stored.width = n := rfl

@[simp] theorem size_flat : A.flat.size = m * n := Array.size_ofFn

theorem place_div : (i.val * n + j) / n = i := by
  rw [Nat.mul_comm, Nat.mul_add_div (Nat.zero_lt_of_lt j.isLt), Nat.div_eq_of_lt j.isLt,
    Nat.add_zero]

theorem place_mod : (i.val * n + j) % n = j := by
  rw [Nat.mul_comm, Nat.mul_add_mod, Nat.mod_eq_of_lt j.isLt]

theorem place_lt : i.val * n + j < m * n := DenseMatrix.flat_lt i j

theorem place_eq_iff {p : Nat} : i.val * n + j = p ↔ p / n = i ∧ p % n = j := by
  constructor
  · rintro rfl
    exact ⟨place_div i j, place_mod i j⟩
  · rintro ⟨hi, hj⟩
    rw [← hi, ← hj, Nat.div_add_mod']

theorem getElem_flat (h : i.val * n + j < A.flat.size) : A.flat[i.val * n + j] = A i j := by
  simp only [flat, Array.getElem_ofFn]
  congr 1
  · exact Fin.ext (place_div i j)
  · exact Fin.ext (place_mod i j)

/-- Arrays of one size are the same if they are in all places of a matrix. -/
theorem flat_eq_of_getElem {x : Array α} (hx : x.size = m * n)
    (h : ∀ (i : Fin m) (j : Fin n) (hp : i.val * n + j < x.size), x[i.val * n + j] = A i j) :
    x = A.flat := by
  apply Array.ext
  · rw [hx, size_flat]
  · intro p hp hp'
    have hlt : p < m * n := hx ▸ hp
    have hn : 0 < n := Nat.pos_of_mul_pos_left (Nat.zero_lt_of_lt hlt)
    have hsplit : p / n * n + p % n = p := Nat.div_add_mod' p n
    have hentry := h ⟨p / n, Nat.div_lt_of_lt_mul (Nat.mul_comm m n ▸ hlt)⟩
      ⟨p % n, Nat.mod_lt p hn⟩ (by simpa only [hsplit] using hp)
    have hflat := A.getElem_flat ⟨p / n, Nat.div_lt_of_lt_mul (Nat.mul_comm m n ▸ hlt)⟩
      ⟨p % n, Nat.mod_lt p hn⟩ (by simpa only [hsplit] using hp')
    simp only [hsplit] at hentry hflat
    rw [hentry, hflat]

@[simp] theorem fetch_flat : fetch A.flat (i * n + j) = .ok (A i j) := by
  rw [fetch, dif_pos (by simpa using place_lt i j), getElem_flat]

@[simp] theorem store_flat (a : α) :
    store A.flat (i * n + j) a = .ok (A.setEntry i j a).flat := by
  rw [store, dif_pos (by simpa using place_lt i j)]
  congr 1
  apply flat_eq_of_getElem
  · rw [Array.size_set, size_flat]
  · intro r c hp
    rw [Array.getElem_set, setEntry_apply]
    have hplace : i.val * n + j = r.val * n + c ↔ r = i ∧ c = j := by
      rw [place_eq_iff, place_div, place_mod, Fin.ext_iff, Fin.ext_iff]
    split_ifs with h h' h'
    · rfl
    · exact absurd (hplace.mp h) h'
    · exact absurd (hplace.mpr h') h
    · exact getElem_flat A r c _

theorem slice_flat : slice A.flat (i * n) (i * n + n) = .ok (A.row i).toArray := by
  have hi : i.val * n + n ≤ m * n := by
    rw [← Nat.succ_mul]
    exact Nat.mul_le_mul_right n i.isLt
  rw [slice, if_pos ⟨Nat.le_add_right _ _, by rwa [size_flat]⟩]
  congr 1
  apply Array.ext
  · rw [Array.size_extract, size_flat, Vec.size_toArray, Nat.min_eq_left hi,
      Nat.add_sub_cancel_left]
  · intro j hj hj'
    have hjn : j < n := by simpa using hj'
    rw [Array.getElem_extract, (A.row i).getElem_toArray ⟨j, hjn⟩ hj', row_apply]
    exact A.getElem_flat i ⟨j, hjn⟩ _

end Mat

end

end DenseLinear
