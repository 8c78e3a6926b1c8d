import DenseLinear.Proofs.Storage.Refusals

/-!
# Errors for sizes

An operation looks at the sizes of its operands before it looks at their entries. So the sizes
alone tell whether it is refused for them, and with which error, and nothing that is wrong with the
entries can come first. The projection is the exception: the vector that it projects onto is tested
before its length is compared, so a negligible one hides that the lengths differ.
-/

namespace DenseLinear

/-- The error is about the shape of an operand, or about sizes that do not fit each other. -/
def Error.IsSize : Error → Prop
  | .shape _ => True
  | .mismatch _ _ => True
  | _ => False

/-- Unless the sizes fit, both computations are refused with `e`, which is an error for sizes. If
they fit, neither computation fails with such an error. -/
structure RefusedBySize {β γ : Type} (Fit : Prop) (e : Error) (x : Checked γ)
    (y : Except Error β) : Prop where
  unfit : ¬Fit → e.IsSize ∧ x = .error (.refused e) ∧ y = .error e
  fit : Fit → FailOnly (fun e => ¬e.IsSize) x y

section

variable {β γ : Type} {x : Checked γ} {y : Except Error β} {view : β → γ} {E E' : Error → Prop}
  {Fit : Prop} {e : Error}

theorem Succeed.failOnly (h : Succeed x y) : FailOnly E x y := by
  obtain ⟨⟨c, rfl⟩, b, rfl⟩ := h
  exact ⟨nofun, nofun⟩

theorem FailOnly.imp (h : FailOnly E x y) (hE : ∀ e, E e → E' e) : FailOnly E' x y := by
  constructor
  · intro s hs
    obtain ⟨e, he, hE'⟩ := h.1 s hs
    exact ⟨e, he, hE e hE'⟩
  · intro e he
    exact hE e (h.2 e he)

/-- A computation on the storage is refused as the one that it follows. -/
theorem RefusedBySize.of_map (h : x = liftM (y.map view)) (hsize : e.IsSize)
    (hunfit : ¬Fit → y = .error e) (hfit : Fit → FailOnly (fun e => ¬e.IsSize) x y) :
    RefusedBySize Fit e x y := by
  refine ⟨?_, hfit⟩
  intro hFit
  have hy := hunfit hFit
  refine ⟨hsize, ?_, hy⟩
  rw [h, hy]
  rfl

theorem RefusedBySize.of_agrees {y : Except Error γ} (h : x = liftM y) (hsize : e.IsSize)
    (hunfit : ¬Fit → y = .error e) (hfit : Fit → FailOnly (fun e => ¬e.IsSize) x y) :
    RefusedBySize Fit e x y := by
  have hid : y.map id = y := congrFun Except.map_id y
  exact of_map (hid.symm ▸ h) hsize hunfit hfit

end

/-- Why two vectors of these lengths are refused where they have to be nonempty and of one
length. -/
def lengthsError (n m : Nat) : Error :=
  if n = 0 ∨ m = 0 then .shape .emptyVector else .mismatch (.vector n) (.vector m)

theorem isSize_lengthsError (n m : Nat) : (lengthsError n m).IsSize := by
  rw [lengthsError]
  split_ifs <;> trivial

namespace DenseVector

variable {α : Type}

theorem check_of_nonempty {x : DenseVector α} (h : 0 < x.size) : x.check = .ok x.size := if_pos h

theorem check_of_empty {x : DenseVector α} (h : x.size = 0) :
    x.check = .error (.shape .emptyVector) := if_neg (Nat.not_lt.mpr h.le)

theorem fit_eq_error {n : Nat} (hn : 0 < n) {x : DenseVector α} (h : x.size ≠ n) :
    x.fit n = .error (lengthsError n x.size) := by
  by_cases hx : x.size = 0
  · rw [fit, check_of_empty hx, lengthsError, if_pos (.inr hx)]
    rfl
  · rw [fit, check_of_nonempty (Nat.pos_of_ne_zero hx), lengthsError, if_neg (by omega)]
    exact dif_neg h

theorem fit_size {x : DenseVector α} (h : 0 < x.size) : x.fit x.size = .ok (.ofArray x rfl) :=
  fit_toArray h (.ofArray x rfl)

/-- What operations on two vectors of one length do before they look at the entries. -/
theorem refused_of_fit_both {β : Type} {x y : DenseVector α}
    (f : (n : Nat) → Vec α n → Vec α n → β) {r : Except Error β}
    (hr : r = x.check >>= fun n => x.fit n >>= fun v => y.fit n >>= fun w => pure (f n v w)) :
    RefusedBySize (0 < x.size ∧ x.size = y.size) (lengthsError x.size y.size) (liftM r) r := by
  refine .of_agrees rfl (isSize_lengthsError _ _) ?_ ?_
  · intro h
    by_cases hx : x.size = 0
    · rw [hr, check_of_empty hx, lengthsError, if_pos (.inl hx)]
      rfl
    · have hpos := Nat.pos_of_ne_zero hx
      rw [hr, check_of_nonempty hpos, Checked.ok_bind, fit_size hpos, Checked.ok_bind,
        fit_eq_error hpos fun hy => h ⟨hpos, hy.symm⟩]
      rfl
  · rintro ⟨hpos, hsize⟩
    have hy : y.fit x.size = .ok (.ofArray y hsize.symm) := fit_toArray hpos (.ofArray y hsize.symm)
    have hok : r = .ok (f x.size (.ofArray x rfl) (.ofArray y hsize.symm)) := by
      rw [hr, check_of_nonempty hpos, Checked.ok_bind, fit_size hpos, Checked.ok_bind, hy]
      rfl
    exact (Succeed.of_agrees rfl ⟨_, hok⟩).failOnly

section

variable [Scalar α] {x y : DenseVector α}

theorem dot_self (hy : 0 < y.size) :
    y.dot y = .ok ((Vec.ofArray y rfl).dot (.ofArray y rfl)) :=
  dot_toArray hy (.ofArray y rfl) (.ofArray y rfl)

/-- Past its test, the projection looks at its operands as an inner product does. -/
theorem projection_of_not_negligible (hy : 0 < y.size)
    (h : ¬Negligible ((Vec.ofArray y rfl).dot (.ofArray y rfl))) :
    x.projection y = x.check >>= fun n => x.fit n >>= fun v => y.fit n >>= fun w =>
      pure (Vec.projection v w).toArray := by
  rw [projection]
  cases x.check with
  | error e => rfl
  | ok n =>
    rw [Checked.ok_bind, check_of_nonempty hy, Checked.ok_bind, fit_size hy, Checked.ok_bind,
      if_neg h]
    rfl

theorem projection_of_empty (h : x.size = 0 ∨ y.size = 0) :
    x.projection y = .error (.shape .emptyVector) := by
  rw [projection]
  by_cases hx : x.size = 0
  · rw [check_of_empty hx]
    rfl
  · rw [check_of_nonempty (Nat.pos_of_ne_zero hx), Checked.ok_bind,
      check_of_empty (h.resolve_left hx)]
    rfl

theorem cross_eq_error (h : ¬(x.size = 3 ∧ y.size = 3)) :
    x.cross y = .error (if x.size = 0 ∨ y.size = 0 then .shape .emptyVector
      else .shape .notThreeDimensional) := by
  rw [cross]
  by_cases hx : x.size = 0
  · rw [check_of_empty hx, if_pos (.inl hx)]
    rfl
  · rw [check_of_nonempty (Nat.pos_of_ne_zero hx), Checked.ok_bind]
    by_cases hy : y.size = 0
    · rw [check_of_empty hy, if_pos (.inr hy)]
      rfl
    · rw [check_of_nonempty (Nat.pos_of_ne_zero hy), Checked.ok_bind, dif_neg h,
        if_neg (not_or.mpr ⟨hx, hy⟩)]

theorem cross_eq_ok (h : x.size = 3 ∧ y.size = 3) : ∃ z, x.cross y = .ok z := by
  rw [cross, check_of_nonempty (by omega), Checked.ok_bind, check_of_nonempty (by omega),
    Checked.ok_bind, dif_pos h]
  exact ⟨_, rfl⟩

theorem projection_refused (h : 0 < x.size → ∀ d, y.dot y = .ok d → ¬Negligible d) :
    RefusedBySize (0 < x.size ∧ x.size = y.size) (lengthsError x.size y.size)
      (liftM (x.projection y)) (x.projection y) := by
  by_cases hempty : x.size = 0 ∨ y.size = 0
  · refine .of_agrees rfl (isSize_lengthsError _ _) ?_ fun hfit => absurd hfit (by omega)
    intro _
    rw [projection_of_empty hempty, lengthsError, if_pos hempty]
  · rw [not_or] at hempty
    have hy := Nat.pos_of_ne_zero hempty.2
    exact refused_of_fit_both (fun _ v w => (Vec.projection v w).toArray)
      (projection_of_not_negligible hy (h (Nat.pos_of_ne_zero hempty.1) _ (dot_self hy)))

theorem projection_of_negligible (hx : 0 < x.size) {d : α} (hy : y.dot y = .ok d)
    (hd : Negligible d) : x.projection y = .error .zeroVector := by
  have hpos : 0 < y.size := by
    by_contra h
    rw [dot, check_of_empty (Nat.eq_zero_of_not_pos h)] at hy
    cases hy
  rw [dot_self hpos, Except.ok.injEq] at hy
  rw [projection, check_of_nonempty hx, Checked.ok_bind, check_of_nonempty hpos, Checked.ok_bind,
    fit_size hpos, Checked.ok_bind, hy, if_pos hd]

end

/-- Which errors for sizes the operations on two vectors are refused with. -/
structure SizeErrors [Scalar α] (x y : DenseVector α) : Prop where
  dot : RefusedBySize (0 < x.size ∧ x.size = y.size) (lengthsError x.size y.size)
    (liftM (x.dot y)) (x.dot y)
  addScaled (c : α) : RefusedBySize (0 < x.size ∧ x.size = y.size) (lengthsError x.size y.size)
    (liftM (addScaled c x y)) (addScaled c x y)
  cross : RefusedBySize (x.size = 3 ∧ y.size = 3)
    (if x.size = 0 ∨ y.size = 0 then .shape .emptyVector else .shape .notThreeDimensional)
    (liftM (x.cross y)) (x.cross y)
  projection (h : 0 < x.size → ∀ d, y.dot y = .ok d → ¬Negligible d) :
    RefusedBySize (0 < x.size ∧ x.size = y.size) (lengthsError x.size y.size)
      (liftM (x.projection y)) (x.projection y)
  projection_of_negligible (hx : 0 < x.size) d (hy : y.dot y = .ok d) (hd : Negligible d) :
    x.projection y = .error .zeroVector

theorem sizeErrors [Scalar α] (x y : DenseVector α) : x.SizeErrors y where
  dot := refused_of_fit_both (fun _ v w => v.dot w) rfl
  addScaled c := refused_of_fit_both (fun _ v w => (Vec.addScaled c v w).toArray) rfl
  cross := .of_agrees rfl (by split_ifs <;> trivial) cross_eq_error
    fun h => (Succeed.of_agrees rfl (cross_eq_ok h)).failOnly
  projection := projection_refused
  projection_of_negligible hx _ := projection_of_negligible hx

end DenseVector

namespace DenseMatrix

variable {α : Type}

section

variable {A B : DenseMatrix α}

theorem toSquare_eq_error (h : ¬A.IsSquare) : A.toSquare = .error (.shape .notSquare) := dif_neg h

theorem solve_eq_sizeError [Scalar α] {b : DenseVector α} (h : ¬(A.IsSquare ∧ b.size = A.height)) :
    A.solve b =
      .error (if A.IsSquare then lengthsError A.height b.size else .shape .notSquare) := by
  rw [solve]
  by_cases hA : A.IsSquare
  · obtain ⟨S, hS⟩ := exists_toSquare hA
    rw [hS, Checked.ok_bind, DenseVector.fit_eq_error A.height_pos fun hb => h ⟨hA, hb⟩, if_pos hA]
    rfl
  · rw [toSquare_eq_error hA, if_neg hA]
    rfl

theorem changeOfBasis_eq_sizeError [Scalar α]
    (h : ¬(A.IsSquare ∧ B.IsSquare ∧ B.height = A.height)) :
    A.changeOfBasis B = .error (if A.IsSquare ∧ B.IsSquare then .shape .basesDiffer
      else .shape .notSquare) := by
  rw [changeOfBasis]
  by_cases hA : A.IsSquare
  · obtain ⟨S, hS⟩ := exists_toSquare hA
    rw [hS, Checked.ok_bind]
    by_cases hB : B.IsSquare
    · obtain ⟨T, hT⟩ := exists_toSquare hB
      rw [hT, Checked.ok_bind, dif_neg fun hAB => h ⟨hA, hB, hAB⟩, if_pos ⟨hA, hB⟩]
    · rw [toSquare_eq_error hB, if_neg fun hAB => hB hAB.2]
      rfl
  · rw [toSquare_eq_error hA, if_neg fun hAB => hA hAB.1]
    rfl

end

variable [RootScalar α] (A : DenseMatrix α)

/-- Which errors for sizes the operations on a matrix are refused with. -/
structure SizeErrors : Prop where
  mulVec (x : DenseVector α) : RefusedBySize (x.size = A.width) (lengthsError A.width x.size)
    (A.stored.mulVec x) (A.mulVec x)
  mul B : RefusedBySize (B.height = A.width) (.mismatch (.matrix A.width B.width) B.size)
    (A.stored.mul B.stored) (A.mul B)
  trace : RefusedBySize A.IsSquare (.shape .notSquare) A.stored.trace A.trace
  det : RefusedBySize A.IsSquare (.shape .notSquare) A.stored.det A.det.result
  inverse : RefusedBySize A.IsSquare (.shape .notSquare) A.stored.inverse A.inverse
  solve (b : DenseVector α) : RefusedBySize (A.IsSquare ∧ b.size = A.height)
    (if A.IsSquare then lengthsError A.height b.size else .shape .notSquare)
    (A.stored.solve b) (A.solve b)
  changeOfBasis B : RefusedBySize (A.IsSquare ∧ B.IsSquare ∧ B.height = A.height)
    (if A.IsSquare ∧ B.IsSquare then .shape .basesDiffer else .shape .notSquare)
    (A.stored.changeOfBasis B.stored) (A.changeOfBasis B)
  lu : RefusedBySize A.IsSquare (.shape .notSquare) A.stored.lu A.lu
  solveFactored (f : LU α A.height) (b : DenseVector α) :
    RefusedBySize (b.size = A.height) (lengthsError A.height b.size)
      (f.lower.stored.solveFactored f.upper.stored b) (A.solveFactored f b)
  eigenvalues options : RefusedBySize A.IsSquare (.shape .notSquare)
    (A.stored.eigenvalues options) (A.eigenvalues options).result
  eigenvector value : RefusedBySize A.IsSquare (.shape .notSquare)
    (A.stored.eigenvector value) (A.eigenvector value).result
  eigenpairs : RefusedBySize A.IsSquare (.shape .notSquare)
    A.stored.eigenpairs A.eigenpairs.result
  diagonalize : RefusedBySize A.IsSquare (.shape .notSquare)
    A.stored.diagonalize A.diagonalize.result

theorem not_isSize_singular {e : Error} (h : e = .singular) : ¬e.IsSize := by
  rw [h]
  exact id

theorem not_isSize_rankDeficient {n : Nat} {e : Error} (h : ∃ c < n, e = .rankDeficient c) :
    ¬e.IsSize := by
  obtain ⟨c, _, rfl⟩ := h
  exact id

theorem sizeErrors : A.SizeErrors := by
  have room := Fits.unbounded
  have hrefusals := A.fittingRefusals (room _ _)
  have hsquare (h : A.IsSquare) := fittingSquareRefusals h (room _ _)
  exact {
    mulVec := fun x => .of_agrees (A.mulVec_stored x) (isSize_lengthsError _ _)
      (fun h => by rw [mulVec, DenseVector.fit_eq_error A.width_pos h]; rfl)
      fun h => (hrefusals.mulVec x h).failOnly
    mul := fun B => .of_map (A.mul_stored B (room _ _)) trivial (fun h => dif_neg h)
      fun h => ((hrefusals.mul B h).succeed (room _ _)).failOnly
    trace := .of_agrees A.trace_stored trivial
      (fun h => by rw [trace, toSquare_eq_error h]; rfl)
      fun h => (hsquare h).trace.failOnly
    det := .of_agrees A.det_stored trivial
      (fun h => by rw [det, toSquare_eq_error h]; rfl)
      fun h => (hsquare h).det.failOnly
    inverse := .of_map (A.inverse_stored (room _ _)) trivial
      (fun h => by rw [inverse, toSquare_eq_error h]; rfl)
      fun h => ((hsquare h).inverse.failOnly (room _ _)).imp fun _ => not_isSize_singular
    solve := fun b => .of_agrees (A.solve_stored (room _ _) b)
      (by split_ifs; exacts [isSize_lengthsError _ _, trivial])
      solve_eq_sizeError
      fun h => (((hsquare h.1).solve b h.2).failOnly (room _ _)).imp fun _ => not_isSize_singular
    changeOfBasis := fun B => .of_map (A.changeOfBasis_stored B (room _ _))
      (by split_ifs <;> trivial)
      changeOfBasis_eq_sizeError
      fun h => (((hsquare h.1).changeOfBasis B h.2.1 h.2.2).failOnly (room _ _)).imp
        fun _ => not_isSize_singular
    lu := .of_map (A.lu_stored (room _ _)) trivial
      (fun h => by rw [lu, toSquare_eq_error h]; rfl)
      fun h => (hsquare h).lu.imp fun _ => by
        rintro ⟨i, _, rfl⟩
        exact id
    solveFactored := fun f b => .of_agrees (A.solveFactored_stored f b) (isSize_lengthsError _ _)
      (fun h => by rw [solveFactored, DenseVector.fit_eq_error A.height_pos h]; rfl)
      fun h => (Succeed.of_agrees (A.solveFactored_stored f b)
        ⟨_, A.solveFactored_toArray f (.ofArray b h)⟩).failOnly
    eigenvalues := fun options => .of_agrees (A.eigenvalues_stored (room _ _) options) trivial
      (fun h => by rw [eigenvalues, toSquare_eq_error h]; rfl)
      fun h => ((hsquare h).eigenvalues options).imp fun _ => not_isSize_rankDeficient
    eigenvector := fun value => .of_agrees (A.eigenvector_stored value) trivial
      (fun h => by rw [eigenvector, toSquare_eq_error h]; rfl)
      fun h => ((hsquare h).eigenvector value).failOnly
    eigenpairs := .of_map (A.eigenpairs_stored (room _ _)) trivial
      (fun h => by rw [eigenpairs, toSquare_eq_error h]; rfl)
      fun h => (hsquare h).eigenpairs.imp fun _ => not_isSize_rankDeficient
    diagonalize := .of_map (A.diagonalize_stored (room _ _)) trivial
      (fun h => by rw [diagonalize, toSquare_eq_error h]; rfl)
      fun h => ((hsquare h).diagonalize.failOnly (room _ _)).imp fun _ => by
        rintro (hc | ⟨_, _, rfl⟩ | hs)
        · exact not_isSize_rankDeficient hc
        · exact id
        · exact not_isSize_singular hs }

/-- Whether an operation is refused for the sizes of its operands, and with which error, depends on
nothing but the sizes. The projection keeps to that unless the vector that it projects onto is
negligible. -/
theorem size_errors_decided_by_sizes :
    (∀ x y : DenseVector α, x.SizeErrors y) ∧ ∀ A : DenseMatrix α, A.SizeErrors :=
  ⟨DenseVector.sizeErrors, sizeErrors⟩

/-- Without a number among the entries, the sizes are compared all the same. -/
theorem size_errors_at_nan :
    let x : DenseVector Float := #[0 / 0, 0 / 0]
    let y : DenseVector Float := #[0 / 0, 0, 1]
    let A : DenseMatrix Float := ⟨1, 2, Nat.one_pos, Nat.two_pos, .ofFn fun _ _ => 0 / 0⟩
    x.dot y = .error (.mismatch (.vector 2) (.vector 3)) ∧
    x.cross y = .error (.shape .notThreeDimensional) ∧
    x.projection y = .error (.mismatch (.vector 2) (.vector 3)) ∧
    A.mulVec y = .error (.mismatch (.vector 2) (.vector 3)) ∧
    A.solve x = .error (.shape .notSquare) ∧ A.diagonalize.result = .error (.shape .notSquare) := by
  intro x y A
  obtain ⟨hvectors, hmatrices⟩ := size_errors_decided_by_sizes (α := Float)
  have hlength : 0 < y.size := Nat.succ_pos 2
  have hnan : ∀ d, y.dot y = .ok d → ¬Negligible d := by
    intro d hd
    rw [DenseVector.dot_self hlength, Except.ok.injEq] at hd
    rw [← hd]
    decide +kernel
  have hsquare : ¬A.IsSquare := by decide
  exact ⟨((hvectors x y).dot.unfit (by decide)).2.2, ((hvectors x y).cross.unfit (by decide)).2.2,
    (((hvectors x y).projection fun _ => hnan).unfit (by decide)).2.2,
    (((hmatrices A).mulVec y).unfit (by decide)).2.2,
    (((hmatrices A).solve x).unfit fun h => hsquare h.1).2.2,
    ((hmatrices A).diagonalize.unfit hsquare).2.2⟩

/-- Vectors of the same lengths, which do not fit, but two errors, one of them not for a size. -/
theorem projection_masks_mismatch :
    let x : DenseVector Float := #[1, 2]
    let null : DenseVector Float := #[0, 0, 0]
    let axis : DenseVector Float := #[1, 0, 0]
    null.size = axis.size ∧ x.size ≠ null.size ∧
    x.projection null = .error .zeroVector ∧ ¬Error.zeroVector.IsSize ∧
    x.projection axis = .error (.mismatch (.vector 2) (.vector 3)) := by
  intro x null axis
  have hnull : Negligible ((Vec.ofArray null rfl).dot (.ofArray null rfl)) := by decide +kernel
  have haxis : ¬Negligible ((Vec.ofArray axis rfl).dot (.ofArray axis rfl)) := by decide +kernel
  have hlength : 0 < axis.size := Nat.succ_pos 2
  refine ⟨rfl, by decide, ?_, id, ?_⟩
  · exact DenseVector.projection_of_negligible Nat.two_pos (DenseVector.dot_self (Nat.succ_pos 2))
      hnull
  · have h := DenseVector.projection_of_not_negligible (x := x) hlength haxis
    exact ((DenseVector.refused_of_fit_both _ h).unfit (by decide)).2.2

end DenseMatrix

end DenseLinear
