import DenseLinear.Proofs.Inverse
import DenseLinear.Proofs.ProductLaws

/-!
# Changes of basis

The matrix of a change of basis is known by its product with the new basis, which is the old one.
So changes of basis that follow each other compose, and there and back again is the identity. In
which order the inversions choose their pivots does not matter, only that inverses are two-sided.
-/

namespace DenseLinear

variable {K : Type} [Field K] [LinearOrder K]

theorem Mat.mul_inverse_mul [IsStrictOrderedRing K] {n m : Nat} {A B : Mat K n n}
    (h : A.inverse = some B) (C : Mat K n m) : A.mul (B.mul C) = C := by
  rw [← mul_mul, mul_eq_identity_comm.mp (mul_of_inverse h), identity_mul]

namespace DenseMatrix

section

variable {n : Nat} (h h' : 0 < n) (S T : Mat K n n)

theorem changeOfBasis_mk_eq_ok_iff :
    (∃ C, (mk n n h h' S).changeOfBasis (mk n n h h' T) = .ok C) ↔ T.inverse.isSome = true := by
  rw [changeOfBasis_mk]
  cases T.inverse <;> simp

end

variable {A B C D E : DenseMatrix K}

/-- The bases are square and of one size, and the new one has an inverse. -/
theorem exists_of_changeOfBasis (h : A.changeOfBasis B = .ok C) :
    ∃ (n : Nat) (hn : 0 < n) (S T I : Mat K n n), A = mk n n hn hn S ∧ B = mk n n hn hn T ∧
      T.inverse = some I ∧ C = mk n n hn hn (I.mul S) := by
  rw [changeOfBasis] at h
  obtain ⟨S, hS, h⟩ := bind_eq_ok.mp h
  obtain ⟨T, hT, h⟩ := bind_eq_ok.mp h
  split_ifs at h with hsize
  obtain ⟨I, hI, h⟩ := bind_eq_ok.mp h
  cases h
  obtain ⟨k, _, hk, _, F⟩ := B
  obtain rfl : k = A.height := hsize
  rw [Mat.cast_rfl, orError_eq_ok] at hI
  exact ⟨A.height, hk, S, T, I, eq_ofSquare_of_toSquare hS, eq_ofSquare_of_toSquare hT, hI, rfl⟩

variable [IsStrictOrderedRing K]

theorem mul_of_changeOfBasis (h : A.changeOfBasis B = .ok C) : B.mul C = .ok A := by
  obtain ⟨n, hn, S, T, I, rfl, rfl, hI, rfl⟩ := exists_of_changeOfBasis h
  rw [mul_mk, Mat.mul_inverse_mul hI]

/-- The coordinates that the change of basis gives stand for the same vector. -/
theorem mulVec_of_changeOfBasis (h : A.changeOfBasis B = .ok C) {x : DenseVector K}
    (hx : x.size = A.width) :
    ∃ y z, C.mulVec x = .ok y ∧ B.mulVec y = .ok z ∧ A.mulVec x = .ok z := by
  have hmul := mul_of_changeOfBasis h
  obtain ⟨n, hn, S, T, I, rfl, rfl, _, rfl⟩ := exists_of_changeOfBasis h
  obtain ⟨P, y, z, hP, hy, hz, hBy⟩ := exists_mul_mulVec (exists_mul_iff.mp ⟨_, hmul⟩) hx
  obtain rfl := Except.ok.inj (hmul.symm.trans hP)
  exact ⟨y, z, hy, hBy, hz⟩

theorem changeOfBasis_trans (h : A.changeOfBasis B = .ok C) (h' : B.changeOfBasis D = .ok E) :
    ∃ F, A.changeOfBasis D = .ok F ∧ E.mul C = .ok F := by
  obtain ⟨n, hn, S, T, I, rfl, rfl, hI, rfl⟩ := exists_of_changeOfBasis h
  obtain ⟨_, _, _, U, J, hT, rfl, hJ, rfl⟩ := exists_of_changeOfBasis h'
  cases hT
  refine ⟨_, ?_, mul_mk hn hn _ _⟩
  rw [changeOfBasis_mk, hJ, Mat.mul_mul, Mat.mul_inverse_mul hI]

theorem changeOfBasis_self (h : A.changeOfBasis A = .ok C) : identity A.height = .ok C := by
  obtain ⟨n, hn, S, T, I, rfl, hT, hI, rfl⟩ := exists_of_changeOfBasis h
  cases hT
  rw [Mat.mul_of_inverse hI]
  exact identity_mk hn

theorem changeOfBasis_back (h : A.changeOfBasis B = .ok C) (h' : B.changeOfBasis A = .ok D) :
    ∃ I, identity A.height = .ok I ∧ D.mul C = .ok I := by
  obtain ⟨F, hF, hmul⟩ := changeOfBasis_trans h h'
  exact ⟨F, changeOfBasis_self hF, hmul⟩

/-- If a change of basis exists, coordinates and changed coordinates stand for one vector. Changes
that follow each other compose to the change from the first basis to the last, which then exists.
The change of a basis to itself is the identity, so the changes there and back are inverse. -/
theorem changeOfBasis_composes (A B : DenseMatrix K) :
    (∀ C, A.changeOfBasis B = .ok C → B.mul C = .ok A ∧
      ∀ x : DenseVector K, x.size = A.width →
        ∃ y z, C.mulVec x = .ok y ∧ B.mulVec y = .ok z ∧ A.mulVec x = .ok z) ∧
    (∀ C D E, A.changeOfBasis B = .ok C → B.changeOfBasis D = .ok E →
      ∃ F, A.changeOfBasis D = .ok F ∧ E.mul C = .ok F) ∧
    (∀ C, A.changeOfBasis A = .ok C → identity A.height = .ok C) ∧
    ∀ C D, A.changeOfBasis B = .ok C → B.changeOfBasis A = .ok D →
      ∃ I, identity A.height = .ok I ∧ D.mul C = .ok I ∧ C.mul D = .ok I := by
  refine ⟨?_, ?_, ?_, ?_⟩
  · intro C h
    exact ⟨mul_of_changeOfBasis h, fun x => mulVec_of_changeOfBasis h⟩
  · intro C D E h h'
    exact changeOfBasis_trans h h'
  · intro C h
    exact changeOfBasis_self h
  · intro C D h h'
    obtain ⟨I, hI, hDC⟩ := changeOfBasis_back h h'
    obtain ⟨J, hJ, hCD⟩ := changeOfBasis_back h' h
    obtain ⟨n, hn, S, T, _, rfl, rfl, _, _⟩ := exists_of_changeOfBasis h
    obtain rfl := Except.ok.inj (hI.symm.trans hJ)
    exact ⟨I, hI, hDC, hCD⟩

/-- Three bases whose inversions exchange different rows. -/
def cornered : Mat ℚ 3 3 := .ofFn ![![0, 2, 1], ![1, 1, 0], ![3, 0, 1]]

def cyclic : Mat ℚ 3 3 := .ofFn ![![1, 1, 0], ![0, 1, 1], ![1, 0, 1]]

def askew : Mat ℚ 3 3 := .ofFn ![![0, 0, 2], ![1, 0, 0], ![0, -3, 1]]

theorem changeOfBasis_composes_cyclic :
    let A : DenseMatrix ℚ := ⟨3, 3, Nat.succ_pos 2, Nat.succ_pos 2, cornered⟩
    let B : DenseMatrix ℚ := ⟨3, 3, Nat.succ_pos 2, Nat.succ_pos 2, cyclic⟩
    let D : DenseMatrix ℚ := ⟨3, 3, Nat.succ_pos 2, Nat.succ_pos 2, askew⟩
    ∃ C E F G I H, A.changeOfBasis B = .ok C ∧ B.changeOfBasis D = .ok E ∧
      B.changeOfBasis A = .ok G ∧ A.changeOfBasis A = .ok H ∧
      B.mul C = .ok A ∧ A.changeOfBasis D = .ok F ∧ E.mul C = .ok F ∧
      identity 3 = .ok H ∧ identity 3 = .ok I ∧ G.mul C = .ok I ∧ C.mul G = .ok I ∧
      ∃ y z, C.mulVec #[5, -1, 2] = .ok y ∧ B.mulVec y = .ok z ∧ A.mulVec #[5, -1, 2] = .ok z := by
  intro A B D
  have hinv : cornered.inverse.isSome = true ∧ cyclic.inverse.isSome = true ∧
      askew.inverse.isSome = true := by decide +kernel
  obtain ⟨C, hC⟩ := (changeOfBasis_mk_eq_ok_iff _ _ cornered cyclic).mpr hinv.2.1
  obtain ⟨E, hE⟩ := (changeOfBasis_mk_eq_ok_iff _ _ cyclic askew).mpr hinv.2.2
  obtain ⟨G, hG⟩ := (changeOfBasis_mk_eq_ok_iff _ _ cyclic cornered).mpr hinv.1
  obtain ⟨H, hH⟩ := (changeOfBasis_mk_eq_ok_iff _ _ cornered cornered).mpr hinv.1
  obtain ⟨hmul, htrans, hself, hback⟩ := changeOfBasis_composes A B
  obtain ⟨hBC, hvec⟩ := hmul C hC
  obtain ⟨F, hF, hEC⟩ := htrans C D E hC hE
  obtain ⟨I, hI, hGC, hCG⟩ := hback C G hC hG
  exact ⟨C, E, F, G, I, H, hC, hE, hG, hH, hBC, hF, hEC, hself H hH, hI, hGC, hCG,
    hvec #[5, -1, 2] rfl⟩

end DenseMatrix

end DenseLinear
