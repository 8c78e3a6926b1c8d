import DenseLinear.Proofs.Storage.Safety

/-!
# Refusals on operands that fit

On operands whose sizes fit, no operation is refused for a size, neither at its start nor by an
operation that it calls. What is left are refusals for the entries: a singular matrix, a negligible
pivot, a dependent column, or eigenvectors that are not as many as the columns. This does not depend
on whether there is room for the matrices that the operation makes. Without room it may run into a
fault instead, but is refused for nothing else.
-/

namespace DenseLinear

section

variable {β γ : Type} {x : Checked γ} {y : Except Error β} {view : β → γ}

/-- Neither of the two computations is refused, or runs into a fault. -/
def Succeed (x : Checked γ) (y : Except Error β) : Prop := (∃ c, x = .ok c) ∧ ∃ b, y = .ok b

/-- Both computations fail only by refusals, and for reasons of which `E` holds. -/
def FailOnly (E : Error → Prop) (x : Checked γ) (y : Except Error β) : Prop :=
  (∀ s, x = .error s → ∃ e, s = .refused e ∧ E e) ∧ ∀ e, y = .error e → E e

def Refused (e : Error) (x : Checked γ) (y : Except Error β) : Prop :=
  x = .error (.refused e) ∧ y = .error e

/-- What a computation that needs room is refused for, with or without it. -/
structure FailOnlyWithRoom (room : Prop) (E : Error → Prop) (x : Checked γ) (y : Except Error β) :
    Prop where
  failOnly : room → FailOnly E x y
  refusals : ∀ e, x = .error (.refused e) → E e
  errors : ∀ e, y = .error e → E e

/-- A computation that needs room is not refused, with or without it. -/
structure SucceedWithRoom (room : Prop) (x : Checked γ) (y : Except Error β) : Prop where
  succeed : room → Succeed x y
  unrefused : Unrefused x
  answers : ∃ b, y = .ok b

instance decidableEqError {ε : Type} [DecidableEq ε] (z : Except ε β) (e : ε) :
    Decidable (z = .error e) :=
  match z with
  | .error d => decidable_of_iff (d = e) ⟨congrArg Except.error, Except.error.inj⟩
  | .ok _ => isFalse nofun

instance (e : Error) : Decidable (Refused e x y) := inferInstanceAs (Decidable (_ ∧ _))

theorem Succeed.of_map (h : x = liftM (y.map view)) (hy : ∃ b, y = .ok b) : Succeed x y := by
  obtain ⟨b, rfl⟩ := hy
  exact ⟨⟨view b, h⟩, b, rfl⟩

theorem FailOnly.of_map {E : Error → Prop} (h : x = liftM (y.map view))
    (hE : ∀ e, y = .error e → E e) : FailOnly E x y := by
  refine ⟨?_, hE⟩
  rintro s rfl
  cases y with
  | error e =>
    cases h
    exact ⟨e, rfl, hE e rfl⟩
  | ok b => cases h

theorem Succeed.of_agrees {y : Except Error γ} (h : x = liftM y) (hy : ∃ c, y = .ok c) :
    Succeed x y := by
  obtain ⟨c, rfl⟩ := hy
  exact ⟨⟨c, h⟩, c, rfl⟩

theorem FailOnly.of_agrees {E : Error → Prop} {y : Except Error γ} (h : x = liftM y)
    (hE : ∀ e, y = .error e → E e) : FailOnly E x y := by
  have hid : y.map id = y := congrFun Except.map_id y
  exact of_map (hid.symm ▸ h) hE

section

variable [SizeArithmetic] {room : Prop} {z : Except Error γ} {P : γ → Prop}

theorem ImplementsWithRoom.failOnly {E : Error → Prop} (h : ImplementsWithRoom room x z P)
    (hz : z = y.map view) (hE : ∀ e, y = .error e → E e) : FailOnlyWithRoom room E x y where
  failOnly hroom := .of_map ((h.implements hroom).agrees.trans (congrArg liftM hz)) hE
  refusals e he := by
    have hmap := hz.symm.trans (h.of_refused he)
    cases y with
    | error e' =>
      cases hmap
      exact hE e rfl
    | ok b => cases hmap
  errors := hE

theorem ImplementsWithRoom.succeed (h : ImplementsWithRoom room x z P) (hz : z = y.map view)
    (hy : ∃ b, y = .ok b) : SucceedWithRoom room x y where
  succeed hroom := .of_map ((h.implements hroom).agrees.trans (congrArg liftM hz)) hy
  unrefused e he := by
    obtain ⟨b, rfl⟩ := hy
    exact absurd (hz.symm.trans (h.of_refused he)) nofun
  answers := hy

end

variable {ε δ : Type}

theorem eq_error_of_bind_pure {z : Except ε β} {f : β → γ} {e : ε}
    (h : (z >>= fun b => pure (f b)) = .error e) : z = .error e := by
  cases z with
  | error e' => exact congrArg Except.error (Except.error.inj h)
  | ok b => cases h

theorem exists_of_mapError {z : Except ε β} {f : ε → δ} {d : δ} (h : z.mapError f = .error d) :
    ∃ e, z = .error e ∧ f e = d := by
  cases z with
  | error e => exact ⟨e, rfl, Except.error.inj h⟩
  | ok b => cases h

theorem eq_singular_of_orError {b : Option β} {e : Error} (h : orError .singular b = .error e) :
    e = .singular := by
  cases b with
  | none => exact (Except.error.inj h).symm
  | some b => cases h

end

variable {α : Type} [RootScalar α]

namespace Mat

variable {n : Nat} {A : Mat α n n} {e : Error}

theorem eigenvalues_eq_error {options : IterationOptions α}
    (h : (A.eigenvalues options).result = .error e) : ∃ c : Fin n, e = .rankDeficient c := by
  rw [eigenvalues] at h
  cases hrun : A.iterateFactors options.tolerance options.maxSteps 0 with
  | error c =>
    rw [hrun] at h
    cases h
    exact ⟨c, rfl⟩
  | ok outcome =>
    rw [hrun] at h
    cases h

theorem eigenpairs_eq_error (h : A.eigenpairs.result = .error e) :
    ∃ c : Fin n, e = .rankDeficient c := by
  rw [result_eigenpairs] at h
  cases hvalues : (A.eigenvalues .standard).result with
  | error e' =>
    rw [hvalues] at h
    cases h
    exact eigenvalues_eq_error hvalues
  | ok values =>
    rw [hvalues] at h
    cases h

theorem diagonalizeWith_eq_error {found : List (Eigenvector α n)}
    (h : diagonalizeWith found = .error e) :
    (found.length ≠ n ∧ e = .notDiagonalizable found.length n) ∨ e = .singular := by
  rw [diagonalizeWith] at h
  split_ifs at h with hlength
  · refine .inr ?_
    simp only at h
    split at h
    · cases h
    · exact (Except.error.inj h).symm
  · exact .inl ⟨hlength, (Except.error.inj h).symm⟩

theorem diagonalize_eq_error (h : A.diagonalize.result = .error e) :
    (∃ c : Fin n, e = .rankDeficient c) ∨
      (∃ found, found ≠ n ∧ e = .notDiagonalizable found n) ∨ e = .singular := by
  rw [result_diagonalize] at h
  cases hvalues : (A.eigenvalues .standard).result with
  | error e' =>
    rw [hvalues] at h
    cases h
    exact .inl (eigenvalues_eq_error hvalues)
  | ok values =>
    rw [hvalues] at h
    rcases diagonalizeWith_eq_error h with ⟨hlength, he⟩ | he
    · exact .inr (.inl ⟨_, hlength, he⟩)
    · exact .inr (.inr he)

end Mat

namespace DenseMatrix

/-- What operations are refused for when their operands fit, on matrices of any size. -/
structure FittingRefusals (sizes : SizeArithmetic) (A : DenseMatrix α) : Prop where
  mul B (h : B.height = A.width) :
    SucceedWithRoom (Fits A.height B.width) (A.stored.mul B.stored) (A.mul B)
  mulVec x (h : x.size = A.width) : Succeed (A.stored.mulVec x) (A.mulVec x)
  qr : FailOnlyWithRoom (Fits A.width A.width) (fun e => ∃ c < A.width, e = .rankDeficient c)
    A.stored.qr A.qr

/-- What operations are refused for when their operands fit, on square matrices. -/
structure FittingSquareRefusals (sizes : SizeArithmetic) (A : DenseMatrix α) : Prop where
  det : Succeed A.stored.det A.det.result
  trace : Succeed A.stored.trace A.trace
  inverse : FailOnlyWithRoom (Fits A.height (2 * A.height)) (· = .singular)
    A.stored.inverse A.inverse
  solve b (h : b.size = A.height) : FailOnlyWithRoom (Fits A.height (2 * A.height)) (· = .singular)
    (A.stored.solve b) (A.solve b)
  changeOfBasis B (hB : B.IsSquare) (h : B.height = A.height) :
    FailOnlyWithRoom (Fits A.height (2 * A.height)) (· = .singular)
      (A.stored.changeOfBasis B.stored) (A.changeOfBasis B)
  lu : FailOnly (fun e => ∃ i < A.height, e = .zeroPivot i) A.stored.lu A.lu
  solveFactored (f : LU α A.height) b (h : b.size = A.height) :
    Succeed (f.lower.stored.solveFactored f.upper.stored b) (A.solveFactored f b)
  eigenvalues options : FailOnly (fun e => ∃ c < A.height, e = .rankDeficient c)
    (A.stored.eigenvalues options) (A.eigenvalues options).result
  eigenvector value : Succeed (A.stored.eigenvector value) (A.eigenvector value).result
  eigenpairs : FailOnly (fun e => ∃ c < A.height, e = .rankDeficient c)
    A.stored.eigenpairs A.eigenpairs.result
  diagonalize : FailOnlyWithRoom (Fits A.height (2 * A.height))
    (fun e => (∃ c < A.height, e = .rankDeficient c) ∨
      (∃ found, found ≠ A.height ∧ e = .notDiagonalizable found A.height) ∨ e = .singular)
    A.stored.diagonalize A.diagonalize.result
  product (f : Diagonalization α A.height) :
    Succeed (Stored.product f.p.stored f.d.stored f.pInv.stored)
      (.ok (A.ofSquare f.product) : Except Error (DenseMatrix α))

theorem fittingRefusals [sizes : SizeArithmetic] (A : DenseMatrix α)
    (hA : Fits A.height A.width) : A.FittingRefusals sizes where
  mul B h := ((A.safeOperations hA).mul B).succeed rfl ⟨_, dif_pos h⟩
  mulVec x h := .of_agrees (A.mulVec_stored x) ⟨_, mulVec_eq_ok_iff.mpr ⟨.ofArray x h, rfl, rfl⟩⟩
  qr := (A.safeOperations hA).qr.failOnly rfl fun e he => by
    obtain ⟨c, _, rfl⟩ := exists_of_mapError he
    exact ⟨c, c.isLt, rfl⟩

variable {A : DenseMatrix α}

section

variable (hA : A.IsSquare) {e : Error}

omit [RootScalar α] in
theorem exists_toSquare (hA : A.IsSquare) : ∃ S, A.toSquare = .ok S := ⟨_, dif_pos hA⟩

include hA

theorem inverse_eq_error (h : A.inverse = .error e) : e = .singular := by
  obtain ⟨S, hS⟩ := exists_toSquare hA
  rw [inverse, hS] at h
  exact eq_singular_of_orError (eq_error_of_bind_pure h)

theorem solve_eq_error {b : DenseVector α} (hb : b.size = A.height)
    (h : A.solve b = .error e) : e = .singular := by
  obtain ⟨S, hS⟩ := exists_toSquare hA
  obtain ⟨v, rfl⟩ : ∃ v : Vec α A.height, b = v.toArray := ⟨.ofArray b hb, rfl⟩
  rw [solve, hS] at h
  simp only [Checked.ok_bind, DenseVector.fit_toArray A.height_pos] at h
  exact eq_singular_of_orError (eq_error_of_bind_pure h)

theorem changeOfBasis_eq_error {B : DenseMatrix α} (hB : B.IsSquare) (hAB : B.height = A.height)
    (h : A.changeOfBasis B = .error e) : e = .singular := by
  obtain ⟨S, hS⟩ := exists_toSquare hA
  obtain ⟨T, hT⟩ := exists_toSquare hB
  rw [changeOfBasis, hS, hT] at h
  simp only [Checked.ok_bind, dif_pos hAB] at h
  exact eq_singular_of_orError (eq_error_of_bind_pure h)

theorem lu_eq_error (h : A.lu = .error e) : ∃ i < A.height, e = .zeroPivot i := by
  obtain ⟨S, hS⟩ := exists_toSquare hA
  rw [lu, hS] at h
  obtain ⟨i, _, rfl⟩ := exists_of_mapError h
  exact ⟨i, i.isLt, rfl⟩

theorem eigenvalues_eq_error {options : IterationOptions α}
    (h : (A.eigenvalues options).result = .error e) : ∃ c < A.height, e = .rankDeficient c := by
  obtain ⟨S, hS⟩ := exists_toSquare hA
  rw [eigenvalues, hS] at h
  simp only [Traced.result_bind, Traced.result_lift, Checked.ok_bind] at h
  obtain ⟨c, rfl⟩ := Mat.eigenvalues_eq_error (eq_error_of_bind_pure h)
  exact ⟨c, c.isLt, rfl⟩

theorem eigenpairs_eq_error (h : A.eigenpairs.result = .error e) :
    ∃ c < A.height, e = .rankDeficient c := by
  obtain ⟨S, hS⟩ := exists_toSquare hA
  rw [eigenpairs, hS] at h
  obtain ⟨c, rfl⟩ := Mat.eigenpairs_eq_error h
  exact ⟨c, c.isLt, rfl⟩

theorem diagonalize_eq_error (h : A.diagonalize.result = .error e) :
    (∃ c < A.height, e = .rankDeficient c) ∨
      (∃ found, found ≠ A.height ∧ e = .notDiagonalizable found A.height) ∨ e = .singular := by
  obtain ⟨S, hS⟩ := exists_toSquare hA
  rw [result_diagonalize_of_toSquare hS] at h
  exact (Mat.diagonalize_eq_error h).imp_left fun ⟨c, hc⟩ => ⟨c, c.isLt, hc⟩

theorem fittingSquareRefusals [sizes : SizeArithmetic] (h : Fits A.height A.width) :
    A.FittingSquareRefusals sizes := by
  obtain ⟨S, hS⟩ := exists_toSquare hA
  have hsafe := A.safeOperations h
  have hid (z : Except Error (DenseVector α)) : z = z.map id := (congrFun Except.map_id z).symm
  have hproduct : Fits A.height A.height := by rwa [show A.width = A.height from hA] at h
  exact {
    det := .of_agrees A.det_stored ⟨S.det, by rw [det, hS]; rfl⟩
    trace := .of_agrees A.trace_stored ⟨S.trace, by rw [trace, hS]; rfl⟩
    inverse := hsafe.inverse.failOnly rfl fun _ => inverse_eq_error hA
    solve := fun b hb => (hsafe.solve b).failOnly (hid _) fun _ => solve_eq_error hA hb
    changeOfBasis := fun B hB hAB =>
      (hsafe.changeOfBasis B).failOnly rfl fun _ => changeOfBasis_eq_error hA hB hAB
    lu := .of_map (A.lu_stored h) fun _ => lu_eq_error hA
    solveFactored := fun f b hb => .of_agrees (A.solveFactored_stored f b)
      ⟨_, A.solveFactored_toArray f (.ofArray b hb)⟩
    eigenvalues := fun options =>
      .of_agrees (A.eigenvalues_stored h options) fun _ => eigenvalues_eq_error hA
    eigenvector := fun value => .of_agrees (A.eigenvector_stored value)
      ⟨_, by rw [eigenvector, hS]; rfl⟩
    eigenpairs := .of_map (A.eigenpairs_stored h) fun _ => eigenpairs_eq_error hA
    diagonalize := hsafe.diagonalize.failOnly rfl fun _ => diagonalize_eq_error hA
    product := fun f => .of_map (A.product_stored hproduct f) ⟨_, rfl⟩ }

end

/-- No operation whose operands fit is refused for a size, whatever sizes are computed with and
whether or not there is room for what it makes. Products, determinants, traces, eigenspaces and
solutions through given factors are not refused at all. -/
theorem refusals_of_fitting_operands (sizes : SizeArithmetic) (A : DenseMatrix α)
    (h : Fits A.height A.width) :
    A.FittingRefusals sizes ∧ (A.IsSquare → A.FittingSquareRefusals sizes) :=
  ⟨A.fittingRefusals h, fun hA => fittingSquareRefusals hA h⟩

/-- Every one of these errors occurs, three of them also where entries are no numbers. Such entries
do not stop the operations that no entries are refused by. -/
theorem refusals_of_deficient :
    let _ : SizeArithmetic := .checked
    let square (f : Fin 2 → Fin 2 → Float) : DenseMatrix Float :=
      ⟨2, 2, Nat.two_pos, Nat.two_pos, .ofFn f⟩
    let parallel := square ![![1, 2], ![2, 4]]
    let swap := square ![![0, 1], ![1, 0]]
    let shear := square ![![1, 1], ![0, 1]]
    let narrow := square ![![1, 1], ![0, 1.00000000005]]
    let exceptional := square ![![0, 0 / 0], ![0, 1 / 0]]
    let tall : DenseMatrix Float :=
      ⟨3, 2, Nat.succ_pos 2, Nat.two_pos, .ofFn ![![1, 2], ![2, 4], ![0, 0]]⟩
    Refused .singular parallel.stored.inverse parallel.inverse ∧
    Refused .singular (parallel.stored.solve #[1, 0 / 0]) (parallel.solve #[1, 0 / 0]) ∧
    Refused .singular (swap.stored.changeOfBasis parallel.stored) (swap.changeOfBasis parallel) ∧
    Refused (.zeroPivot 1) parallel.stored.lu parallel.lu ∧
    Refused (.zeroPivot 0) swap.stored.lu swap.lu ∧
    Refused (.rankDeficient 1) tall.stored.qr tall.qr ∧
    Refused (.rankDeficient 1) (parallel.stored.eigenvalues .standard)
      (parallel.eigenvalues .standard).result ∧
    Refused (.rankDeficient 1) parallel.stored.eigenpairs parallel.eigenpairs.result ∧
    Refused (.rankDeficient 1) parallel.stored.diagonalize parallel.diagonalize.result ∧
    Refused (.notDiagonalizable 1 2) shear.stored.diagonalize shear.diagonalize.result ∧
    Refused .singular narrow.stored.diagonalize narrow.diagonalize.result ∧
    Refused .singular exceptional.stored.inverse exceptional.inverse ∧
    Refused (.zeroPivot 0) exceptional.stored.lu exceptional.lu ∧
    Refused (.rankDeficient 0) exceptional.stored.diagonalize exceptional.diagonalize.result ∧
    Succeed exceptional.stored.det exceptional.det.result ∧
    Succeed exceptional.stored.trace exceptional.trace ∧
    Succeed (exceptional.stored.eigenvector (1 / 0)) (exceptional.eigenvector (1 / 0)).result ∧
    Succeed (tall.stored.mul exceptional.stored) (tall.mul exceptional) ∧
    Succeed (tall.stored.mulVec #[0 / 0, 1]) (tall.mulVec #[0 / 0, 1]) ∧
    tall.FittingRefusals .checked ∧ parallel.FittingSquareRefusals .checked ∧
    swap.FittingSquareRefusals .checked ∧ shear.FittingSquareRefusals .checked ∧
    narrow.FittingSquareRefusals .checked ∧ exceptional.FittingSquareRefusals .checked := by
  intro _ square parallel swap shear narrow exceptional tall
  have hsquare (f) : (square f).FittingSquareRefusals .checked :=
    (refusals_of_fitting_operands .checked (square f)
      (.inr (show 2 * 2 < UInt64.size by decide))).2 rfl
  have htall := (refusals_of_fitting_operands .checked tall (.inr (by decide))).1
  have hexceptional : exceptional.FittingSquareRefusals .checked := hsquare _
  exact ⟨by decide +kernel, by decide +kernel, by decide +kernel, by decide +kernel,
    by decide +kernel, by decide +kernel, by decide +kernel, by decide +kernel, by decide +kernel,
    by decide +kernel, by decide +kernel, by decide +kernel, by decide +kernel, by decide +kernel,
    hexceptional.det, hexceptional.trace, hexceptional.eigenvector _,
    (htall.mul exceptional rfl).succeed (.inr (by decide)), htall.mulVec _ rfl, htall, hsquare _, hsquare _,
    hsquare _, hsquare _, hexceptional⟩

end DenseMatrix

end DenseLinear
