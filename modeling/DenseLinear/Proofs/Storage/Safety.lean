import DenseLinear.Proofs.Storage.Dense

/-!
# Safety of operations in storage

On the storage of a dense matrix, an operation does what it does on the matrix. So it never runs
into a fault, and what it answers has the sides that it should. This needs room for the matrices
that the operation makes. A product, an orthogonal factorization and an inverse may ask for more
than there is, and then run into a fault, unless they are refused for the entries before.
-/

namespace DenseLinear

section

variable {β γ : Type} {x : Checked γ} {y : Except Error β} {view : β → γ}

/-- A computation in storage answers as `y` does, with something of which `P` holds. It is refused as
`y` is, and never runs into a fault. -/
structure Implements (x : Checked γ) (y : Except Error γ) (P : γ → Prop) : Prop where
  agrees : x = liftM y
  faultless : ∀ f, x ≠ .error (.fault f)
  answers : ∀ c, x = .ok c → P c

theorem Implements.of_agrees {y : Except Error γ} {P : γ → Prop} (h : x = liftM y)
    (hP : ∀ c, y = .ok c → P c) : Implements x y P := by
  subst h
  cases y with
  | error e => exact ⟨rfl, fun _ => nofun, nofun⟩
  | ok c =>
    refine ⟨rfl, fun _ => nofun, ?_⟩
    rintro _ ⟨⟩
    exact hP c rfl

theorem Implements.of_map {P : γ → Prop} (h : x = liftM (y.map view))
    (hP : ∀ b, y = .ok b → P (view b)) : Implements x (y.map view) P := by
  apply of_agrees h
  cases y with
  | error e => exact nofun
  | ok b =>
    rintro _ ⟨⟩
    exact hP b rfl

/-- A computation that needs room implements `y` where there is room. Otherwise it is refused as `y`
is, or runs into a fault. -/
structure ImplementsWithRoom [SizeArithmetic] (room : Prop) (x : Checked γ) (y : Except Error γ)
    (P : γ → Prop) : Prop where
  implements : room → Implements x y P
  fails : ¬room → (∃ e, y = .error e ∧ x = .error (.refused e)) ∨ LacksRoom x

theorem ImplementsWithRoom.of_ok [SizeArithmetic] {room : Prop} {y : Except Error γ}
    {P : γ → Prop} {c : γ} (h : ImplementsWithRoom room x y P) (hx : x = .ok c) :
    room ∧ Implements x y P := by
  by_cases hroom : room
  · exact ⟨hroom, h.implements hroom⟩
  · rcases h.fails hroom with ⟨e, _, he⟩ | hlacks
    · rw [hx] at he
      cases he
    · exact absurd hx (hlacks.unanswered c)

/-- With or without room, what the computation is refused for is what `y` is refused for. -/
theorem ImplementsWithRoom.of_refused [SizeArithmetic] {room : Prop} {y : Except Error γ}
    {P : γ → Prop} {e : Error} (h : ImplementsWithRoom room x y P)
    (hx : x = .error (.refused e)) : y = .error e := by
  by_cases hroom : room
  · have hagrees := hx.symm.trans (h.implements hroom).agrees
    cases y with
    | error e' =>
      cases hagrees
      rfl
    | ok c => cases hagrees
  · rcases h.fails hroom with ⟨e', hy, he⟩ | hlacks
    · rw [hx] at he
      cases he
      exact hy
    · exact absurd hx (hlacks.unrefused e)

/-- What a refusal of `y` is to the computation that shows it. -/
theorem fails_of_refused [SizeArithmetic] {e : Error} (hy : y = .error e)
    (hx : x = .error (.refused e)) :
    (∃ e, y.map view = .error e ∧ x = .error (.refused e)) ∨ LacksRoom x :=
  .inl ⟨e, by rw [hy]; rfl, hx⟩

end

variable {α : Type}

/-- The storage has the given sides, and as many entries as they say. -/
structure Stored.HasShape (M : Stored α) (r c : Nat) : Prop where
  height : M.height = r
  width : M.width = c
  size : M.data.size = r * c

theorem Mat.hasShape_stored {m n : Nat} (A : Mat α m n) : A.stored.HasShape m n :=
  ⟨rfl, rfl, A.size_flat⟩

theorem Vec.size_of_mem {n : Nat} {l : List (Vec α n)} {v : Array α}
    (h : v ∈ l.map Vec.toArray) : v.size = n := by
  obtain ⟨w, _, rfl⟩ := List.mem_map.mp h
  exact w.size_toArray

section

variable [RootScalar α]

namespace DenseMatrix

variable (A : DenseMatrix α)

omit [RootScalar α] in
theorem hasShape_stored : A.stored.HasShape A.height A.width := A.entries.hasShape_stored

/-- Each operation on the storage of `A` does what it does on `A`, without a fault, and what it
answers has the sides that it should. Some need room for more than `A` itself. The other operands
are arbitrary. -/
structure SafeOperations (sizes : SizeArithmetic) (A : DenseMatrix α) : Prop where
  rref : Implements A.stored.rref (A.rref.result.map stored) fun R => R.HasShape A.height A.width
  pivotColumns : Implements A.stored.pivotColumns A.pivotColumns.result fun js =>
    ∀ j ∈ js, j < A.width
  rank : Implements A.stored.rank A.rank.result fun r => r ≤ A.height
  nullSpace : Implements A.stored.nullSpace A.nullSpace.result fun basis =>
    ∀ v ∈ basis, v.size = A.width
  columnSpace : Implements A.stored.columnSpace A.columnSpace.result fun basis =>
    ∀ v ∈ basis, v.size = A.height
  rowSpace : Implements A.stored.rowSpace A.rowSpace.result fun basis =>
    ∀ v ∈ basis, v.size = A.width
  det : Implements A.stored.det A.det.result fun _ => True
  inverse : ImplementsWithRoom (Fits A.height (2 * A.height)) A.stored.inverse
    (A.inverse.map stored) fun B => B.HasShape A.height A.height
  solve b : ImplementsWithRoom (Fits A.height (2 * A.height)) (A.stored.solve b) (A.solve b)
    fun x => x.size = A.height
  lu : Implements A.stored.lu (A.lu.map storedLU) fun f =>
    f.1.HasShape A.height A.height ∧ f.2.HasShape A.height A.height
  solveFactored (f : LU α A.height) b :
    Implements (f.lower.stored.solveFactored f.upper.stored b) (A.solveFactored f b) fun x =>
      x.size = A.height
  qr : ImplementsWithRoom (Fits A.width A.width) A.stored.qr (A.qr.map storedQR) fun f =>
    f.1.HasShape A.height A.width ∧ f.2.HasShape A.width A.width
  eigenvalues options : Implements (A.stored.eigenvalues options) (A.eigenvalues options).result
    fun values => values.size = A.height
  eigenvector value : Implements (A.stored.eigenvector value) (A.eigenvector value).result
    fun basis => ∀ v ∈ basis, v.size = A.height
  eigenpairs : Implements A.stored.eigenpairs (A.eigenpairs.result.map (List.map Eigenpair.arrays))
    fun pairs => ∀ pair ∈ pairs, ∀ v ∈ pair.2, v.size = A.height
  diagonalize : ImplementsWithRoom (Fits A.height (2 * A.height)) A.stored.diagonalize
    (A.diagonalize.result.map storedDiagonalization) fun f =>
      f.1.HasShape A.height A.height ∧ f.2.1.HasShape A.height A.height ∧
        f.2.2.HasShape A.height A.height
  product (f : Diagonalization α A.height) :
    ImplementsWithRoom (Fits A.height A.height)
      (Stored.product f.p.stored f.d.stored f.pInv.stored)
      (.ok (A.ofSquare f.product).stored) fun B => B.HasShape A.height A.height
  changeOfBasis B : ImplementsWithRoom (Fits A.height (2 * A.height))
    (A.stored.changeOfBasis B.stored) ((A.changeOfBasis B).map stored) fun C =>
      C.HasShape A.height A.height
  mul B : ImplementsWithRoom (Fits A.height B.width) (A.stored.mul B.stored)
    ((A.mul B).map stored) fun C => C.HasShape A.height B.width
  mulVec x : Implements (A.stored.mulVec x) (A.mulVec x) fun y => y.size = A.height
  transpose : Implements A.stored.transpose (.ok A.transpose.stored) fun T =>
    T.HasShape A.width A.height
  trace : Implements A.stored.trace A.trace fun _ => True

theorem hasShape_inverse {B : DenseMatrix α} (h : A.inverse = .ok B) :
    B.stored.HasShape A.height A.height := by
  rw [inverse] at h
  obtain ⟨S, _, h⟩ := bind_eq_ok.mp h
  obtain ⟨T, _, h⟩ := bind_eq_ok.mp h
  cases h
  exact T.hasShape_stored

theorem hasShape_changeOfBasis {B C : DenseMatrix α} (h : A.changeOfBasis B = .ok C) :
    C.stored.HasShape A.height A.height := by
  rw [changeOfBasis] at h
  obtain ⟨S, _, h⟩ := bind_eq_ok.mp h
  obtain ⟨T, _, h⟩ := bind_eq_ok.mp h
  split_ifs at h
  obtain ⟨U, _, h⟩ := bind_eq_ok.mp h
  cases h
  exact (U.mul S).hasShape_stored

theorem hasShape_mul {B C : DenseMatrix α} (h : A.mul B = .ok C) :
    C.stored.HasShape A.height B.width := by
  rw [mul] at h
  split_ifs at h
  cases h
  exact Mat.hasShape_stored _

theorem size_solve {b x : DenseVector α} (h : A.solve b = .ok x) : x.size = A.height := by
  rw [solve] at h
  obtain ⟨S, _, h⟩ := bind_eq_ok.mp h
  obtain ⟨v, _, h⟩ := bind_eq_ok.mp h
  obtain ⟨w, _, h⟩ := bind_eq_ok.mp h
  cases h
  exact w.size_toArray

theorem size_solveFactored {f : LU α A.height} {b x : DenseVector α}
    (h : A.solveFactored f b = .ok x) : x.size = A.height := by
  rw [solveFactored] at h
  obtain ⟨v, _, h⟩ := bind_eq_ok.mp h
  cases h
  exact Vec.size_toArray _

theorem size_mulVec {x y : DenseVector α} (h : A.mulVec x = .ok y) : y.size = A.height := by
  rw [mulVec] at h
  obtain ⟨v, _, h⟩ := bind_eq_ok.mp h
  cases h
  exact Vec.size_toArray _

theorem size_eigenvalues {options : IterationOptions α} {values : DenseVector α}
    (h : (A.eigenvalues options).result = .ok values) : values.size = A.height := by
  simp only [eigenvalues, Traced.result_bind] at h
  obtain ⟨S, _, h⟩ := bind_eq_ok.mp h
  obtain ⟨v, _, h⟩ := bind_eq_ok.mp h
  cases h
  exact v.size_toArray

theorem size_eigenvector {value : α} {basis : List (DenseVector α)}
    (h : (A.eigenvector value).result = .ok basis) : ∀ v ∈ basis, v.size = A.height := by
  simp only [eigenvector, Traced.result_bind] at h
  obtain ⟨S, _, h⟩ := bind_eq_ok.mp h
  obtain ⟨l, _, h⟩ := bind_eq_ok.mp h
  cases h
  exact fun _ => Vec.size_of_mem

section

variable [SizeArithmetic]

theorem qr_lacksRoom (h : ¬Fits A.width A.width) :
    (∃ e, A.qr.map storedQR = .error e ∧ A.stored.qr = .error (.refused e)) ∨
      LacksRoom A.stored.qr := by
  rcases A.entries.qr_lacksRoom A.height_pos A.width_pos h with ⟨c, hrefused, hM⟩ | hlacks
  · refine fails_of_refused ?_ hM
    rw [qr, hrefused]
    rfl
  · exact .inr hlacks

theorem inverse_lacksRoom (hA : Fits A.height A.width) (h : ¬Fits A.height (2 * A.height)) :
    (∃ e, A.inverse.map stored = .error e ∧ A.stored.inverse = .error (.refused e)) ∨
      LacksRoom A.stored.inverse := by
  rcases A.inverse_cases with ⟨n, hn, S, rfl⟩ | ⟨e, hrefused, hM⟩
  · exact .inr (S.inverse_lacksRoom hn hA h)
  · exact fails_of_refused hrefused hM

theorem solve_lacksRoom (hA : Fits A.height A.width) (h : ¬Fits A.height (2 * A.height))
    (b : DenseVector α) :
    (∃ e, A.solve b = .error e ∧ A.stored.solve b = .error (.refused e)) ∨
      LacksRoom (A.stored.solve b) := by
  rcases A.solve_cases b with ⟨n, hn, S, v, rfl, rfl⟩ | hrefused
  · right
    rw [Stored.solve, stored, S.side_stored, Checked.ok_bind, DenseVector.check_toArray hn,
      Checked.lift_error_ok, Checked.ok_bind, if_pos rfl]
    exact (S.inverse_lacksRoom hn hA h).bind _
  · exact .inl hrefused

theorem changeOfBasis_lacksRoom (hA : Fits A.height A.width)
    (h : ¬Fits A.height (2 * A.height)) (B : DenseMatrix α) :
    (∃ e, (A.changeOfBasis B).map stored = .error e ∧
      A.stored.changeOfBasis B.stored = .error (.refused e)) ∨
      LacksRoom (A.stored.changeOfBasis B.stored) := by
  rcases A.changeOfBasis_cases B with ⟨n, hn, S, T, rfl, rfl⟩ | ⟨e, hrefused, hM⟩
  · right
    rw [Stored.changeOfBasis, stored, stored, S.side_stored, Checked.ok_bind, T.side_stored,
      Checked.ok_bind, if_pos rfl]
    exact (T.inverse_lacksRoom hn hA h).bind _
  · exact fails_of_refused hrefused hM

theorem mul_lacksRoom (B : DenseMatrix α) (h : ¬Fits A.height B.width) :
    (∃ e, (A.mul B).map stored = .error e ∧
      A.stored.mul B.stored = .error (.refused e)) ∨ LacksRoom (A.stored.mul B.stored) := by
  by_cases hAB : B.height = A.width
  · right
    have hlacks := A.entries.mul_lacksRoom A.height_pos B.width_pos h (B.entries.cast hAB rfl)
    rwa [B.entries.cast_stored] at hlacks
  · exact fails_of_refused (dif_neg hAB) (if_neg hAB)

theorem diagonalize_lacksRoom (hA : Fits A.height A.width)
    (h : ¬Fits A.height (2 * A.height)) :
    (∃ e, A.diagonalize.result.map storedDiagonalization = .error e ∧
      A.stored.diagonalize = .error (.refused e)) ∨ LacksRoom A.stored.diagonalize := by
  rcases A.square_cases with ⟨n, hn, S, rfl⟩ | ⟨hside, hsquare⟩
  · rcases S.diagonalize_lacksRoom hn hA h with ⟨e, hrefused, hM⟩ | hlacks
    · refine fails_of_refused ?_ hM
      rw [result_diagonalize_of_toSquare (toSquare_mk _ _ _), hrefused]
    · exact .inr hlacks
  · refine fails_of_refused (e := .shape .notSquare) ?_ ?_
    · rw [diagonalize, hsquare]
      rfl
    · rw [Stored.diagonalize, hside]
      rfl

end

theorem safeOperations [sizes : SizeArithmetic] (hA : Fits A.height A.width) :
    A.SafeOperations sizes where
  rref := .of_map A.rref_stored fun R hR => by
    cases hR
    exact hasShape_stored _
  pivotColumns := .of_agrees A.pivotColumns_stored fun js hjs => by
    cases hjs
    rintro j hj
    obtain ⟨c, _, rfl⟩ := List.mem_map.mp hj
    exact c.isLt
  rank := .of_agrees A.rank_stored fun r hr => by
    cases hr
    exact A.entries.rank_le_rows
  nullSpace := .of_agrees A.nullSpace_stored fun basis hbasis => by
    cases hbasis
    exact fun _ => Vec.size_of_mem
  columnSpace := .of_agrees A.columnSpace_stored fun basis hbasis => by
    cases hbasis
    exact fun _ => Vec.size_of_mem
  rowSpace := .of_agrees A.rowSpace_stored fun basis hbasis => by
    cases hbasis
    exact fun _ => Vec.size_of_mem
  det := .of_agrees A.det_stored fun _ _ => trivial
  inverse := ⟨fun h => .of_map (A.inverse_stored h) fun _ => A.hasShape_inverse,
    A.inverse_lacksRoom hA⟩
  solve b := ⟨fun h => .of_agrees (A.solve_stored h b) fun _ => A.size_solve,
    fun h => A.solve_lacksRoom hA h b⟩
  lu := .of_map (A.lu_stored hA) fun f _ => ⟨f.lower.hasShape_stored, f.upper.hasShape_stored⟩
  solveFactored f b := .of_agrees (A.solveFactored_stored f b) fun _ => A.size_solveFactored
  qr := ⟨fun h => .of_map (A.qr_stored hA h) fun f _ =>
      ⟨f.q.hasShape_stored, f.r.hasShape_stored⟩,
    A.qr_lacksRoom⟩
  eigenvalues options :=
    .of_agrees (A.eigenvalues_stored hA options) fun _ => A.size_eigenvalues
  eigenvector value := .of_agrees (A.eigenvector_stored value) fun _ => A.size_eigenvector
  eigenpairs := .of_map (A.eigenpairs_stored hA) fun pairs _ pair hpair => by
    obtain ⟨p, _, rfl⟩ := List.mem_map.mp hpair
    exact fun _ => Vec.size_of_mem
  diagonalize := ⟨fun h => .of_map (A.diagonalize_stored h) fun f _ =>
      ⟨f.p.hasShape_stored, f.d.hasShape_stored, f.pInv.hasShape_stored⟩,
    A.diagonalize_lacksRoom hA⟩
  product f := ⟨fun h => .of_agrees (A.product_stored h f) fun B hB => by
      cases hB
      exact hasShape_stored _,
    fun h => .inr ((Mat.mul_lacksRoom A.height_pos A.height_pos h f.p f.d).bind _)⟩
  changeOfBasis B := ⟨fun h => .of_map (A.changeOfBasis_stored B h) fun _ =>
      A.hasShape_changeOfBasis,
    fun h => A.changeOfBasis_lacksRoom hA h B⟩
  mul B := ⟨fun h => .of_map (A.mul_stored B h) fun _ => A.hasShape_mul, A.mul_lacksRoom B⟩
  mulVec x := .of_agrees (A.mulVec_stored x) fun _ => A.size_mulVec
  transpose := .of_agrees (A.transpose_stored hA) fun T hT => by
    cases hT
    exact hasShape_stored _
  trace := .of_agrees A.trace_stored fun _ _ => trivial

end DenseMatrix

end

end DenseLinear
