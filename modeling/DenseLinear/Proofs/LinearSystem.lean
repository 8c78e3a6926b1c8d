import DenseLinear.Dense.Access
import DenseLinear.Proofs.EchelonForm
import DenseLinear.Proofs.Inverse
import DenseLinear.Proofs.Substitution

/-!
# Systems of linear equations

A square system can be solved through the inverse, through the triangular factors, or by reducing
the matrix with the right-hand side as one more column. Each way that comes to an end finds the one
solution, so they all find the same.
-/

namespace DenseLinear

/-- There is only one increasing list of the right length below a bound. -/
theorem eq_range_of_pairwise_lt {l : List Nat} {n : Nat} (hn : l.length = n)
    (h : l.Pairwise (· < ·)) (hb : ∀ a ∈ l, a < n) : l = List.range n := by
  have hsub : l.Sublist (List.range n) := by
    apply List.sublist_of_subperm_of_pairwise _ h List.pairwise_lt_range
    apply List.subperm_of_subset (h.imp fun hab => hab.ne)
    intro a ha
    exact List.mem_range.mpr (hb a ha)
  exact hsub.eq_of_length (hn.trans List.length_range.symm)

namespace Mat

def appendCol {α : Type} {m n : Nat} (A : Mat α m n) (b : Vec α m) : Mat α m (n + 1) :=
  ofFn fun i j => if h : j.val < n then A i ⟨j, h⟩ else b i

section

variable {α : Type} {m n : Nat}

@[simp] theorem appendCol_castSucc (A : Mat α m n) (b : Vec α m) (i : Fin m) (j : Fin n) :
    (A.appendCol b) i j.castSucc = A i j := by
  simp [appendCol]

@[simp] theorem appendCol_last (A : Mat α m n) (b : Vec α m) (i : Fin m) :
    (A.appendCol b) i (Fin.last n) = b i := by
  simp [appendCol]

end

variable {K : Type} [Field K] [LinearOrder K] {m n : Nat}

theorem mul_appendCol (E : Mat K m m) (A : Mat K m n) (b : Vec K m) :
    E.mul (A.appendCol b) = (E.mul A).appendCol (E.mulVec b) := by
  ext i j
  rw [mul_entry]
  refine Fin.lastCases ?_ (fun j => ?_) j
  · simp only [appendCol_last, mulVec_entry]
  · simp only [appendCol_castSucc, mul_entry]

/-- A matrix with a left inverse has one solution for every right-hand side. -/
theorem mulVec_eq_iff_of_mul {A B : Mat K n n} (h : B.mul A = identity n) (b x : Vec K n) :
    A.mulVec x = b ↔ x = B.mulVec b := by
  constructor
  · rintro rfl
    rw [← mul_mulVec, h, identity_mulVec]
  · rintro rfl
    rw [← mul_mulVec, mul_eq_identity_comm.mp h, identity_mulVec]

/-- If there are `n` pivots and none of them is in the last column, they are in order. -/
theorem reduction_columns_getElem? {R : Mat K n (n + 1)} (hcursor : R.reduction.cursor = n)
    (hleft : ∀ c ∈ R.reduction.columns, c.val < n) (i : Fin n) :
    R.reduction.columns[i.val]? = some i.castSucc := by
  have hinc : R.reduction.columns.Pairwise (· < ·) :=
    (R.reductionUpTo_ordered (n + 1) le_rfl).increasing
  have hrange : R.reduction.columns.map Fin.val = List.range n := by
    apply eq_range_of_pairwise_lt
    · rw [List.length_map, Reduction.length_columns, hcursor]
    · exact List.pairwise_map.mpr hinc
    · intro a ha
      obtain ⟨c, hc, rfl⟩ := List.mem_map.mp ha
      exact hleft c hc
  have hi : (R.reduction.columns.map Fin.val)[i.val]? = some i.val := by
    rw [hrange, List.getElem?_range i.isLt]
  rw [List.getElem?_map, Option.map_eq_some_iff] at hi
  obtain ⟨c, hc, hci⟩ := hi
  rw [hc, Fin.ext (a := c) (b := i.castSucc) hci]

variable [IsStrictOrderedRing K] {A : Mat K n n} {b : Vec K n}

/-- The reduction multiplies by an inverse of the left columns, and so leaves the solution in the
last one. -/
theorem mulVec_eq_iff_of_reduction (hcursor : (A.appendCol b).reduction.cursor = n)
    (hleft : ∀ c ∈ (A.appendCol b).reduction.columns, c.val < n) (x : Vec K n) :
    A.mulVec x = b ↔ x = (A.appendCol b).rref.col (Fin.last n) := by
  obtain ⟨E, _, _, _, hE⟩ := (A.appendCol b).rref_rowEquivalent
  rw [mul_appendCol] at hE
  have hinv : E.mul A = identity n := by
    ext i j
    have hunit := (A.appendCol b).reductionUpTo_unitColumns (n + 1) le_rfl j j.castSucc
      (reduction_columns_getElem? hcursor hleft j) i
    change (A.appendCol b).rref i j.castSucc = _ at hunit
    rw [hE, appendCol_castSucc] at hunit
    rw [hunit, identity_apply]
    exact if_congr Fin.ext_iff.symm rfl rfl
  have hlast : (A.appendCol b).rref.col (Fin.last n) = E.mulVec b := by
    ext i
    rw [col_apply, hE, appendCol_last]
  rw [mulVec_eq_iff_of_mul hinv, hlast]

theorem mulVec_eq_iff_of_solve {x : Vec K n} (h : A.solve b = some x) (y : Vec K n) :
    A.mulVec y = b ↔ y = x := by
  obtain ⟨B, hB, rfl⟩ := Option.map_eq_some_iff.mp h
  exact mulVec_eq_iff_of_mul (mul_of_inverse hB) b y

theorem mulVec_eq_iff_of_lu {f : LU K n} (h : A.lu = .ok f) (b y : Vec K n) :
    A.mulVec y = b ↔ y = f.solve b := by
  rw [← (LU.upTo_factors h).solve_eq_iff, eq_comm]

end Mat

namespace DenseMatrix

def appendCol {α : Type} (A : DenseMatrix α) (b : Vec α A.height) : DenseMatrix α :=
  ⟨A.height, A.width + 1, A.height_pos, Nat.succ_pos _, A.entries.appendCol b⟩

/-- One of the three ways to solve `A x = b` answers `x`. By reduction the answer is in the last
column, provided that there is a pivot for each row and none of them is in that column. -/
inductive Answers {α : Type} [Scalar α] (A : DenseMatrix α) (b : Vec α A.height) :
    DenseVector α → Prop where
  | inversion {x : DenseVector α} (h : A.solve b.toArray = .ok x) : Answers A b x
  | factors {f : LU α A.height} {x : DenseVector α} (hf : A.lu = .ok f)
      (h : A.solveFactored f b.toArray = .ok x) : Answers A b x
  | reduction {R : DenseMatrix α} {x : DenseVector α}
      (hcursor : (A.appendCol b).entries.reduction.cursor = A.height)
      (hleft : ∀ c ∈ (A.appendCol b).entries.reduction.columns, c.val < A.width)
      (hR : (A.appendCol b).rref.result = .ok R) (h : R.column A.width = .ok x) : Answers A b x

variable {K : Type} [Field K] [LinearOrder K] [IsStrictOrderedRing K]

theorem Answers.mulVec_iff {n : Nat} {hn hn' : 0 < n} {S : Mat K n n} {b : Vec K n}
    {x : DenseVector K} (h : (mk n n hn hn' S).Answers b x) :
    ∃ v : Vec K n, x = v.toArray ∧ ∀ w, S.mulVec w = b ↔ w = v := by
  cases h with
  | inversion h =>
    rw [solve_mk] at h
    cases hv : S.solve b with
    | none => simp [hv] at h
    | some v =>
      simp only [hv, Except.ok.injEq] at h
      exact ⟨v, h.symm, Mat.mulVec_eq_iff_of_solve hv⟩
  | factors hf h =>
    rename_i f
    obtain ⟨T, hT, hf⟩ := lu_eq_ok_iff.mp hf
    obtain rfl : S = T := Except.ok.inj ((toSquare_mk hn hn' S).symm.trans hT)
    rw [solveFactored_toArray, Except.ok.injEq] at h
    exact ⟨f.solve b, h.symm, Mat.mulVec_eq_iff_of_lu hf b⟩
  | reduction hcursor hleft hR h =>
    cases hR
    have hlast := column_val ⟨n, n + 1, hn, Nat.succ_pos n, (S.appendCol b).rref⟩ (Fin.last n)
    exact ⟨_, Except.ok.inj (h.symm.trans hlast), Mat.mulVec_eq_iff_of_reduction hcursor hleft⟩

/-- Every answer solves the system, and no other vector does. So all answers agree, and the
triangular factors give back what the matrix is multiplied by. -/
theorem answers_unique_solution (A : DenseMatrix K) (hA : A.IsSquare) (b : Vec K A.height) :
    (∀ x, A.Answers b x →
      A.mulVec x = .ok b.toArray ∧ ∀ y, A.mulVec y = .ok b.toArray → y = x) ∧
    (∀ x y, A.Answers b x → A.Answers b y → x = y) ∧
    ∀ f, A.lu = .ok f →
      (∃ x, A.Answers b x ∧ A.solveFactored f b.toArray = .ok x) ∧
      ∀ y : Vec K A.width, ∃ c, A.mulVec y.toArray = .ok c ∧
        A.solveFactored f c = .ok y.toArray := by
  obtain ⟨m, n, hm, hn, S⟩ := A
  obtain rfl : n = m := hA
  have hsolves (x) (h : (mk n n hm hn S).Answers b x) :
      (mk n n hm hn S).mulVec x = .ok b.toArray ∧
        ∀ y, (mk n n hm hn S).mulVec y = .ok b.toArray → y = x := by
    obtain ⟨v, rfl, hv⟩ := h.mulVec_iff
    constructor
    · exact mulVec_eq_ok_iff.mpr ⟨v, rfl, congrArg Vec.toArray ((hv v).mpr rfl)⟩
    · intro y hy
      obtain ⟨w, rfl, hw⟩ := mulVec_eq_ok_iff.mp hy
      rw [(hv w).mp (Vec.toArray_inj.mp hw)]
  refine ⟨hsolves, ?_, ?_⟩
  · intro x y hx hy
    exact (hsolves y hy).2 x (hsolves x hx).1
  · intro f hf
    constructor
    · have hx := (mk n n hm hn S).solveFactored_toArray f b
      exact ⟨_, .factors hf hx, hx⟩
    · intro y
      obtain ⟨T, hT, hlu⟩ := lu_eq_ok_iff.mp hf
      obtain rfl : S = T := Except.ok.inj ((toSquare_mk hm hn S).symm.trans hT)
      have hy : y = f.solve (S.mulVec y) := (Mat.mulVec_eq_iff_of_lu hlu (S.mulVec y) y).mp rfl
      refine ⟨_, mulVec_eq_ok_iff.mpr ⟨y, rfl, rfl⟩, ?_⟩
      rw [solveFactored_toArray]
      exact congrArg (fun v => Except.ok v.toArray) hy.symm

/-- The inversion exchanges rows, the other two ways do not. -/
def consecutive : Mat ℚ 3 3 := .ofFn ![![1, 2, 3], ![4, 5, 6], ![7, 8, 10]]

theorem answers_consecutive :
    let A : DenseMatrix ℚ := ⟨3, 3, Nat.succ_pos 2, Nat.succ_pos 2, consecutive⟩
    let b : Vec ℚ 3 := .ofFn ![1, 2, 3]
    let x : Vec ℚ 3 := .ofFn ![-1 / 3, 2 / 3, 0]
    A.IsSquare ∧ A.solve b.toArray = .ok x.toArray ∧
      (∃ f, A.lu = .ok f ∧ A.solveFactored f b.toArray = .ok x.toArray) ∧
      (∃ R, (A.appendCol b).rref.result = .ok R ∧ R.column 3 = .ok x.toArray) ∧
      A.mulVec x.toArray = .ok b.toArray ∧ ∀ y, A.mulVec y = .ok b.toArray → y = x.toArray := by
  intro A b x
  have hsolve : consecutive.solve b = some x := by decide +kernel
  have hlu : consecutive.lu.isOk := by decide +kernel
  have hcursor : (consecutive.appendCol b).reduction.cursor = 3 := by decide +kernel
  have hleft : ∀ c ∈ (consecutive.appendCol b).reduction.columns, c.val < 3 := by decide +kernel
  have hinv : A.solve b.toArray = .ok x.toArray := by rw [solve_mk, hsolve]
  obtain ⟨huniq, hsame, hfactors⟩ := answers_unique_solution A rfl b
  have hx := huniq _ (.inversion hinv)
  refine ⟨rfl, hinv, ?_, ?_, hx.1, hx.2⟩
  · obtain ⟨f, hf⟩ := exists_eq_ok_of_isOk hlu
    have h : A.lu = .ok f := lu_eq_ok_iff.mpr ⟨consecutive, toSquare_mk _ _ _, hf⟩
    obtain ⟨⟨y, hy, hfy⟩, _⟩ := hfactors f h
    exact ⟨f, h, hsame y _ hy (.inversion hinv) ▸ hfy⟩
  · let R := (A.appendCol b).withEntries (consecutive.appendCol b).rref
    have hcol := column_val R (Fin.last 3)
    have hy : A.Answers b _ := .reduction (R := R) hcursor hleft rfl hcol
    exact ⟨R, rfl, hsame _ _ hy (.inversion hinv) ▸ hcol⟩

end DenseMatrix

end DenseLinear
