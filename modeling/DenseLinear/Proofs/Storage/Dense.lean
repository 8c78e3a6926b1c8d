import DenseLinear.Proofs.Storage.Spectrum
import DenseLinear.Proofs.Storage.Triangular

/-!
# Operations on stored dense matrices

What each operation does on the storage of a dense matrix is what it does on the matrix, as long as
there is room for the matrices that it makes. This includes its refusals: an operand of the wrong
size is refused in storage for the same reason, and before anything is read.
-/

namespace DenseLinear

variable {α : Type}

namespace DenseVector

/-- A vector has the length asked for, or is empty, or has another length. -/
theorem fit_cases (n : Nat) (x : DenseVector α) :
    (∃ v : Vec α n, x = v.toArray) ∨
      (∃ e, x.check = .error e ∧ x.fit n = .error e) ∨
      (∃ l, l ≠ n ∧ x.check = .ok l ∧ x.fit n = .error (.mismatch (.vector n) (.vector l))) := by
  by_cases h : x.size = n
  · exact .inl ⟨.ofArray x h, rfl⟩
  · rw [fit]
    cases hx : x.check with
    | error e => exact .inr (.inl ⟨e, rfl, rfl⟩)
    | ok l =>
      have hl : x.size = l := by
        rw [check] at hx
        split_ifs at hx
        exact Except.ok.inj hx
      exact .inr (.inr ⟨l, hl ▸ h, rfl, hl ▸ dif_neg h⟩)

end DenseVector

namespace DenseMatrix

variable (A B : DenseMatrix α)

/-- A matrix is square, or is refused where a square one is needed. -/
theorem square_cases :
    (∃ (n : Nat) (hn : 0 < n) (S : Mat α n n), A = ⟨n, n, hn, hn, S⟩) ∨
      (A.stored.side = .error (.refused (.shape .notSquare)) ∧
        A.toSquare = .error (.shape .notSquare)) := by
  obtain ⟨m, n, hm, hn, E⟩ := A
  by_cases h : n = m
  · subst h
    exact .inl ⟨n, hn, E, rfl⟩
  · exact .inr ⟨if_neg (Ne.symm h), dif_neg h⟩

theorem map_stored {β : Type} (f : α → β) : A.stored.map f = (A.map f).stored :=
  A.entries.map_stored f

theorem setEntry_stored (i j : Nat) (a : α) :
    A.stored.setEntry i j a = liftM ((A.set i j a).map stored) := by
  rw [set]
  split_ifs with h
  · exact A.entries.setEntry_stored ⟨i, h.1⟩ ⟨j, h.2⟩ a
  · exact if_neg h

section

variable [Zero α] [One α] [SizeArithmetic]

theorem identity_stored {n : Nat} (h : Fits n n) :
    Stored.identity n = (liftM ((identity n).map stored) : Checked (Stored α)) := by
  rw [identity]
  split_ifs with hn
  · exact Mat.identity_stored hn h
  · rw [Stored.identity, Stored.zeros, if_neg fun h => hn h.1]
    rfl

theorem ofDiagonal_stored {d : Array α} (h : Fits d.size d.size) :
    Stored.ofDiagonal d = liftM ((ofDiagonal d).map stored) := by
  rw [ofDiagonal]
  split_ifs with hd
  · exact Mat.ofDiagonal_stored hd h (.ofArray d rfl)
  · rw [Stored.ofDiagonal, Stored.zeros, if_neg fun h => hd h.1]
    rfl

theorem transpose_stored (h : Fits A.height A.width) :
    A.stored.transpose = .ok A.transpose.stored :=
  A.entries.transpose_stored A.height_pos A.width_pos h

end

section

variable [Scalar α]

theorem rref_stored : A.stored.rref = liftM (A.rref.result.map stored) :=
  A.entries.rref_stored A.height_pos

theorem pivotColumns_stored : A.stored.pivotColumns = liftM A.pivotColumns.result :=
  A.entries.pivotColumns_stored A.height_pos A.width_pos

theorem rank_stored : A.stored.rank = liftM A.rank.result :=
  A.entries.rank_stored A.height_pos A.width_pos

theorem nullSpace_stored : A.stored.nullSpace = liftM A.nullSpace.result :=
  A.entries.nullSpace_stored A.height_pos A.width_pos

theorem columnSpace_stored : A.stored.columnSpace = liftM A.columnSpace.result :=
  A.entries.columnSpace_stored A.height_pos A.width_pos

theorem rowSpace_stored : A.stored.rowSpace = liftM A.rowSpace.result :=
  A.entries.rowSpace_stored A.height_pos A.width_pos

theorem mul_stored [SizeArithmetic] (h : Fits A.height B.width) :
    A.stored.mul B.stored = storing (A.mul B) := by
  rw [mul]
  split_ifs with hAB
  · rw [storing_ok, stored, stored, stored, ← B.entries.cast_stored hAB rfl]
    exact A.entries.mul_stored A.height_pos B.width_pos h _
  · exact if_neg hAB

theorem trace_stored : A.stored.trace = liftM A.trace := by
  rcases A.square_cases with ⟨n, hn, S, rfl⟩ | ⟨hside, hsquare⟩
  · rw [trace_mk]
    exact S.trace_stored
  · rw [Stored.trace, hside, trace, hsquare]
    rfl

theorem det_stored : A.stored.det = liftM A.det.result := by
  rcases A.square_cases with ⟨n, hn, S, rfl⟩ | ⟨hside, hsquare⟩
  · rw [det_mk]
    exact S.det_stored
  · rw [Stored.det, hside, det, hsquare]
    rfl

/-- A matrix is inverted if it is square, and refused otherwise. -/
theorem inverse_cases [SizeArithmetic] :
    (∃ (n : Nat) (hn : 0 < n) (S : Mat α n n), A = ⟨n, n, hn, hn, S⟩) ∨
      ∃ e, A.inverse = .error e ∧ A.stored.inverse = .error (.refused e) := by
  rcases A.square_cases with hA | ⟨hside, hsquare⟩
  · exact .inl hA
  · refine .inr ⟨.shape .notSquare, ?_, ?_⟩
    · rw [inverse, hsquare]
      rfl
    · rw [Stored.inverse, hside]
      rfl

theorem inverse_stored [SizeArithmetic] (h : Fits A.height (2 * A.height)) :
    A.stored.inverse = storing A.inverse := by
  rcases A.inverse_cases with ⟨n, hn, S, rfl⟩ | ⟨e, hA, hM⟩
  · rw [inverse_mk]
    refine (S.inverse_stored hn h).trans ?_
    cases S.inverse <;> rfl
  · rw [hA, hM]
    rfl

theorem mulVec_stored (x : DenseVector α) : A.stored.mulVec x = liftM (A.mulVec x) := by
  rcases x.fit_cases A.width with ⟨v, rfl⟩ | ⟨e, hcheck, hfit⟩ | ⟨l, hl, hcheck, hfit⟩
  · rw [mulVec, DenseVector.fit_toArray A.width_pos]
    exact A.entries.mulVec_stored A.width_pos v
  · rw [Stored.mulVec, hcheck, mulVec, hfit]
    rfl
  · rw [Stored.mulVec, hcheck, mulVec, hfit]
    exact if_neg hl.symm

theorem solve_cases [SizeArithmetic] (b : DenseVector α) :
    (∃ (n : Nat) (hn : 0 < n) (S : Mat α n n) (v : Vec α n),
      A = ⟨n, n, hn, hn, S⟩ ∧ b = v.toArray) ∨
      ∃ e, A.solve b = .error e ∧ A.stored.solve b = .error (.refused e) := by
  rcases A.square_cases with ⟨n, hn, S, rfl⟩ | ⟨hside, hsquare⟩
  · rcases b.fit_cases n with ⟨v, rfl⟩ | ⟨e, hcheck, hfit⟩ | ⟨l, hl, hcheck, hfit⟩
    · exact .inl ⟨n, hn, S, v, rfl, rfl⟩
    · refine .inr ⟨e, ?_, ?_⟩
      · rw [solve, toSquare_mk]
        simp only [Checked.ok_bind, hfit]
        rfl
      · rw [Stored.solve, stored, S.side_stored, Checked.ok_bind, hcheck]
        rfl
    · refine .inr ⟨.mismatch (.vector n) (.vector l), ?_, ?_⟩
      · rw [solve, toSquare_mk]
        simp only [Checked.ok_bind, hfit]
        rfl
      · rw [Stored.solve, stored, S.side_stored, Checked.ok_bind, hcheck]
        exact if_neg hl
  · refine .inr ⟨.shape .notSquare, ?_, ?_⟩
    · rw [solve, hsquare]
      rfl
    · rw [Stored.solve, hside]
      rfl

theorem solve_stored [SizeArithmetic] (h : Fits A.height (2 * A.height)) (b : DenseVector α) :
    A.stored.solve b = liftM (A.solve b) := by
  rcases A.solve_cases b with ⟨n, hn, S, v, rfl, rfl⟩ | ⟨e, hA, hM⟩
  · rw [solve_mk]
    refine (S.solve_stored hn h v).trans ?_
    cases S.solve v <;> rfl
  · rw [hA, hM]
    rfl

theorem changeOfBasis_cases [SizeArithmetic] :
    (∃ (n : Nat) (hn : 0 < n) (S T : Mat α n n),
      A = ⟨n, n, hn, hn, S⟩ ∧ B = ⟨n, n, hn, hn, T⟩) ∨
      ∃ e, A.changeOfBasis B = .error e ∧
        A.stored.changeOfBasis B.stored = .error (.refused e) := by
  rcases A.square_cases with ⟨n, hn, S, rfl⟩ | ⟨hside, hsquare⟩
  · rcases B.square_cases with ⟨k, hk, T, rfl⟩ | ⟨hside, hsquare⟩
    · by_cases hkn : k = n
      · subst hkn
        exact .inl ⟨k, hn, S, T, rfl, rfl⟩
      · refine .inr ⟨.shape .basesDiffer, ?_, ?_⟩
        · rw [changeOfBasis, toSquare_mk, toSquare_mk]
          exact dif_neg hkn
        · rw [Stored.changeOfBasis, stored, stored, S.side_stored, Checked.ok_bind, T.side_stored]
          exact if_neg (Ne.symm hkn)
    · refine .inr ⟨.shape .notSquare, ?_, ?_⟩
      · rw [changeOfBasis, toSquare_mk, hsquare]
        rfl
      · rw [Stored.changeOfBasis, stored, S.side_stored, Checked.ok_bind, hside]
        rfl
  · refine .inr ⟨.shape .notSquare, ?_, ?_⟩
    · rw [changeOfBasis, hsquare]
      rfl
    · rw [Stored.changeOfBasis, hside]
      rfl

theorem changeOfBasis_stored [SizeArithmetic] (h : Fits A.height (2 * A.height)) :
    A.stored.changeOfBasis B.stored = storing (A.changeOfBasis B) := by
  rcases A.changeOfBasis_cases B with ⟨n, hn, S, T, rfl, rfl⟩ | ⟨e, hA, hM⟩
  · rw [changeOfBasis_mk]
    refine (S.changeOfBasis_stored hn h T).trans ?_
    cases T.inverse <;> rfl
  · rw [hA, hM]
    rfl

def storedLU {n : Nat} (f : LU α n) : Stored α × Stored α := (f.lower.stored, f.upper.stored)

theorem lu_stored [SizeArithmetic] (h : Fits A.height A.width) :
    A.stored.lu = liftM (A.lu.map storedLU) := by
  rcases A.square_cases with ⟨n, hn, S, rfl⟩ | ⟨hside, hsquare⟩
  · rw [lu, toSquare_mk]
    refine (S.lu_stored hn h).trans ?_
    simp only [Checked.ok_bind]
    cases S.lu <;> rfl
  · rw [Stored.lu, hside, lu, hsquare]
    rfl

theorem solveFactored_stored (f : LU α A.height) (b : DenseVector α) :
    f.lower.stored.solveFactored f.upper.stored b = liftM (A.solveFactored f b) := by
  rcases b.fit_cases A.height with ⟨v, rfl⟩ | ⟨e, hcheck, hfit⟩ | ⟨l, hl, hcheck, hfit⟩
  · rw [solveFactored_toArray]
    exact Mat.solveFactored_stored A.height_pos f v
  · rw [Stored.solveFactored, hcheck, solveFactored, hfit]
    rfl
  · rw [Stored.solveFactored, hcheck, solveFactored, hfit]
    exact if_neg hl

end

section

variable [RootScalar α]

def storedQR {m n : Nat} (f : QR α m n) : Stored α × Stored α := (f.q.stored, f.r.stored)

def storedDiagonalization {n : Nat} (f : Diagonalization α n) : Stored α × Stored α × Stored α :=
  (f.p.stored, f.d.stored, f.pInv.stored)

section

variable [SizeArithmetic] (h : Fits A.height A.width)
include h

theorem qr_stored (hr : Fits A.width A.width) : A.stored.qr = liftM (A.qr.map storedQR) := by
  refine (A.entries.qr_stored A.height_pos A.width_pos h hr).trans ?_
  rw [qr]
  cases A.entries.qr <;> rfl

theorem eigenvalues_stored (options : IterationOptions α) :
    A.stored.eigenvalues options = liftM (A.eigenvalues options).result := by
  rcases A.square_cases with ⟨n, hn, S, rfl⟩ | ⟨hside, hsquare⟩
  · rw [eigenvalues, toSquare_mk]
    refine (S.eigenvalues_stored hn h options).trans ?_
    simp only [Traced.result_bind, Traced.result_lift, Checked.ok_bind]
    cases (S.eigenvalues options).result <;> rfl
  · rw [Stored.eigenvalues, hside, eigenvalues, hsquare]
    rfl

theorem eigenpairs_stored :
    A.stored.eigenpairs = liftM (A.eigenpairs.result.map (List.map Eigenpair.arrays)) := by
  rcases A.square_cases with ⟨n, hn, S, rfl⟩ | ⟨hside, hsquare⟩
  · rw [eigenpairs, toSquare_mk]
    exact S.eigenpairs_stored hn h
  · rw [Stored.eigenpairs, hside, eigenpairs, hsquare]
    rfl

end

theorem eigenvector_stored (value : α) :
    A.stored.eigenvector value = liftM (A.eigenvector value).result := by
  rcases A.square_cases with ⟨n, hn, S, rfl⟩ | ⟨hside, hsquare⟩
  · rw [eigenvector, toSquare_mk]
    exact S.eigenvector_stored hn value
  · rw [Stored.eigenvector, hside, eigenvector, hsquare]
    rfl

theorem diagonalize_stored [SizeArithmetic] (h : Fits A.height (2 * A.height)) :
    A.stored.diagonalize = liftM (A.diagonalize.result.map storedDiagonalization) := by
  rcases A.square_cases with ⟨n, hn, S, rfl⟩ | ⟨hside, hsquare⟩
  · rw [diagonalize, toSquare_mk]
    exact S.diagonalize_stored hn h
  · rw [Stored.diagonalize, hside, diagonalize, hsquare]
    rfl

theorem product_stored [SizeArithmetic] (h : Fits A.height A.height)
    (f : Diagonalization α A.height) :
    Stored.product f.p.stored f.d.stored f.pInv.stored = storing (.ok (A.ofSquare f.product)) :=
  Mat.product_stored A.height_pos h f

end

end DenseMatrix

end DenseLinear
