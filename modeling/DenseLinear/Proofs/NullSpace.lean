import DenseLinear.Proofs.EchelonForm

/-!
# Free solutions

Each free column of the reduced form gives one vector: it is one in that column, zero in the other
free columns, and read off the reduced form in the leading ones. So these vectors are linearly
independent. If the reduction skips only zeros, they solve the homogeneous system.
-/

namespace DenseLinear

/-- Setting the entries named by a list, each name at most once, leaves each of them as it was
set. -/
theorem Vec.foldl_set_of_mem {α β : Type} {n : Nat} (f : β → α) {l : List (Fin n × β)}
    (hl : (l.map Prod.fst).Nodup) (v : Vec α n) {c : Fin n} {b : β} (h : (c, b) ∈ l) :
    (l.foldl (fun v p => v.set p.1 (f p.2)) v) c = f b := by
  induction l using List.reverseRecOn with
  | nil => exact absurd h List.not_mem_nil
  | append_singleton l p ih =>
    rw [List.map_append, List.nodup_append] at hl
    rw [List.foldl_append, List.foldl_cons, List.foldl_nil, set_apply]
    rcases List.mem_append.mp h with h | h
    · have hne : c ≠ p.1 := hl.2.2 c (List.mem_map_of_mem h) p.1 (by simp)
      rw [if_neg hne]
      exact ih hl.1 h
    · rw [← List.mem_singleton.mp h, if_pos rfl]

theorem Vec.foldl_set_of_notMem {α β : Type} {n : Nat} (f : β → α) {l : List (Fin n × β)}
    (v : Vec α n) {c : Fin n} (h : c ∉ l.map Prod.fst) :
    (l.foldl (fun v p => v.set p.1 (f p.2)) v) c = v c := by
  induction l generalizing v with
  | nil => rfl
  | cons p l ih =>
    rw [List.map_cons, List.mem_cons, not_or] at h
    rw [List.foldl_cons, ih _ h.2, set_apply, if_neg h.1]

theorem map_fst_zip_sublist {β γ : Type} (l : List β) (l' : List γ) :
    ((l.zip l').map Prod.fst).Sublist l := by
  induction l generalizing l' with
  | nil => simp
  | cons b l ih => cases l' <;> simp [ih]

namespace Mat

section

variable {α : Type} [Scalar α] {m n : Nat} {R : Mat α m n} {leads : List (Fin n)} {c j : Fin n}

def freeColumns (A : Mat α m n) : List (Fin n) :=
  (List.finRange n).filter fun j => !A.pivotColumns.contains j

def freeSolutions (A : Mat α m n) : List (Vec α n) :=
  A.freeColumns.map (A.rref.freeSolution A.pivotColumns)

theorem mem_freeColumns {A : Mat α m n} : j ∈ A.freeColumns ↔ j ∉ A.pivotColumns := by
  simp [freeColumns]

theorem nodup_freeColumns (A : Mat α m n) : A.freeColumns.Nodup := (List.nodup_finRange n).filter _

theorem length_freeSolutions (A : Mat α m n) :
    A.freeSolutions.length = Fintype.card {j : Fin n // j ∉ A.pivotColumns} := by
  rw [freeSolutions, List.length_map, ← List.toFinset_card_of_nodup A.nodup_freeColumns]
  exact (Fintype.card_of_subtype _ fun j => List.mem_toFinset.trans mem_freeColumns).symm

theorem nullSpace_eq (A : Mat α m n) :
    A.nullSpace = if A.freeColumns = [] then [.replicate n 0] else A.freeSolutions := by
  have hfree : (List.finRange n).filter (· ∉ A.rref.leadingColumns) = A.freeColumns :=
    List.filter_congr fun j _ => by simp [pivotColumns]
  simp only [nullSpace, hfree, freeSolutions]
  cases A.freeColumns <;> simp [pivotColumns]

theorem freeSolution_lead (hleads : leads.Nodup) {i : Fin m} (h : leads[i.val]? = some c) :
    (R.freeSolution leads j) c = -R i j := by
  apply Vec.foldl_set_of_mem (fun i => -R i j) (hleads.sublist (map_fst_zip_sublist leads _))
  apply List.mem_of_getElem? (i := i.val)
  rw [List.getElem?_zip_eq_some]
  exact ⟨h, by simp⟩

theorem freeSolution_of_notMem (hc : c ∉ leads) :
    (R.freeSolution leads j) c = if c = j then 1 else 0 := by
  have hkeep := Vec.foldl_set_of_notMem (fun i => -R i j) ((Vec.replicate n 0).set j 1)
    fun h => hc ((map_fst_zip_sublist leads (List.finRange m)).subset h)
  rw [freeSolution, hkeep, Vec.set_apply, Vec.replicate_apply]

theorem freeSolution_self (hj : j ∉ leads) : (R.freeSolution leads j) j = 1 := by
  rw [freeSolution_of_notMem hj, if_pos rfl]

end

variable {K : Type} [Field K] [LinearOrder K] {m n : Nat} {R : Mat K m n} {cols : List (Fin n)}
  {A : Mat K m n}

theorem IsReduced.mulVec_freeSolution (h : R.IsReduced cols) {j : Fin n} (hj : j ∉ cols) :
    R.mulVec (R.freeSolution cols j) = .replicate m 0 := by
  have hterm (i : Fin m) (c : Fin n) : R i c * (R.freeSolution cols j) c =
      (if j = c then R i j else 0) + if cols[i.val]? = some c then -R i j else 0 := by
    by_cases hc : c ∈ cols
    · obtain ⟨k, hk⟩ := h.exists_row hc
      have hjc : j ≠ c := fun he => hj (he ▸ hc)
      rw [freeSolution_lead h.nodup hk, h.unit k c hk i, if_neg hjc, zero_add]
      by_cases hik : i = k
      · rw [hik, if_pos rfl, if_pos hk, one_mul]
      · have hne : cols[i.val]? ≠ some c := fun hi => hik (Fin.ext (h.row_eq hi hk))
        rw [if_neg (Fin.val_ne_of_ne hik), if_neg hne, zero_mul]
    · have hne : cols[i.val]? ≠ some c := fun hi => hc (List.mem_of_getElem? hi)
      rw [freeSolution_of_notMem hc, if_neg hne, add_zero]
      by_cases hcj : c = j
      · rw [if_pos hcj, if_pos hcj.symm, mul_one, hcj]
      · rw [if_neg hcj, if_neg (Ne.symm hcj), mul_zero]
  ext i
  rw [mulVec_entry, Vec.replicate_apply, Finset.sum_congr rfl fun c _ => hterm i c,
    Finset.sum_add_distrib, Finset.sum_ite_eq, if_pos (Finset.mem_univ j)]
  cases hi : cols[i.val]? with
  | none => simp [h.eq_zero_of_none hi]
  | some c => simp [Finset.sum_ite_eq]

theorem linearIndependent_freeSolution (R : Mat K m n) (leads : List (Fin n)) :
    LinearIndependent K fun j : {j : Fin n // j ∉ leads} => (R.freeSolution leads j).entry := by
  apply linearIndependent_of_unit_coordinates Subtype.val
  intro j c
  exact (freeSolution_of_notMem c.2).trans (if_congr Subtype.ext_iff.symm rfl rfl)

variable [IsStrictOrderedRing K]

theorem mulVec_eq_zero_of_mem_freeSolutions (hA : A.SkipsOnlyZeros) {v : Vec K n}
    (hv : v ∈ A.freeSolutions) : A.mulVec v = .replicate m 0 := by
  obtain ⟨j, hj, rfl⟩ := List.mem_map.mp hv
  rw [mem_freeColumns, pivotColumns_eq hA] at hj
  rw [A.rref_rowEquivalent.mulVec_eq_zero_iff, pivotColumns_eq hA]
  exact (rref_isReduced hA).mulVec_freeSolution hj

end Mat

end DenseLinear
