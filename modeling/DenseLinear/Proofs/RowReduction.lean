import DenseLinear.Dense.Product
import DenseLinear.Dense.Reduction
import DenseLinear.Proofs.Pivot

/-!
# Row reduction keeps the row space

Every step of the reduction is a row operation that can be undone, whatever the entries are: a
pivot is significant when it is used, so it is not zero. What is skipped is skipped without a
trace.
-/

namespace DenseLinear

namespace Mat

variable {K : Type} [Field K] [LinearOrder K] [IsStrictOrderedRing K] {m n : Nat}

theorem reduceColumn_rowEquivalent (c : Fin n) (s : Reduction K m n) :
    RowEquivalent s.matrix (reduceColumn c s).matrix := by
  rcases reduceColumn_cases c s with ⟨he, _⟩ | ⟨h, r, _, hs, he⟩
  · rw [he]
    exact RowEquivalent.refl _
  · rw [he]
    exact rowEquivalent_pivotOn _ _ r (ne_zero_of_significant hs)

theorem reductionUpTo_rowEquivalent (A : Mat K m n) (k : Nat) (h : k ≤ n) :
    RowEquivalent A (A.reductionUpTo k h).matrix := by
  refine afterSteps_induction (fun _ (s : Reduction K m n) => RowEquivalent A s.matrix) ?_ ?_ k h
  · exact RowEquivalent.refl A
  · intro c s hs
    exact hs.trans (reduceColumn_rowEquivalent c s)

theorem rref_rowEquivalent (A : Mat K m n) : RowEquivalent A A.rref :=
  reductionUpTo_rowEquivalent A n le_rfl

end Mat

namespace DenseMatrix

variable {K : Type} [Field K] [LinearOrder K] [IsStrictOrderedRing K]

/-- The reduced form is the matrix times an invertible one, so it has the same kernel and the same
row space. -/
theorem rref_invertible_transform (A : DenseMatrix K) :
    ∃ R : Mat K A.height A.width, A.rref.result = .ok (A.withEntries R) ∧
      (∃ E F : Mat K A.height A.height, E.mul F = .identity A.height ∧
        F.mul E = .identity A.height ∧ R = E.mul A.entries) ∧
      (∀ x : Vec K A.width, A.entries.mulVec x = .replicate A.height 0 ↔
        R.mulVec x = .replicate A.height 0) ∧
      (∀ i, ∃ c : Fin A.height → K, ∀ j, A.entries i j = ∑ p, c p * R p j) ∧
      ∀ i, ∃ c : Fin A.height → K, ∀ j, R i j = ∑ p, c p * A.entries p j := by
  have h := A.entries.rref_rowEquivalent
  exact ⟨A.entries.rref, rfl, h, h.mulVec_eq_zero_iff, h.symm.exists_combination,
    h.exists_combination⟩

/-- The first column is skipped, though it is not zero: its first entry is `5 * 10⁻¹¹`. -/
def faint : DenseMatrix ℚ :=
  ⟨3, 2, Nat.succ_pos 2, Nat.two_pos,
    .ofFn ![![1 / (2 * 10 ^ 10), 1 / (5 * 10 ^ 9)], ![0, 1], ![0, 1]]⟩

theorem rref_faint :
    ∃ E F : Mat ℚ 3 3, E.mul F = .identity 3 ∧ F.mul E = .identity 3 ∧
      .ofFn ![![1 / 4, 1], ![-1 / 4, 0], ![-1 / 4, 0]] = E.mul faint.entries := by
  have hR : faint.entries.rref = .ofFn ![![1 / 4, 1], ![-1 / 4, 0], ![-1 / 4, 0]] := by
    decide +kernel
  obtain ⟨R, hres, ⟨E, F, hEF, hFE, hE⟩, _⟩ := rref_invertible_transform faint
  have hR' : R = faint.entries.rref := by
    have h := Except.ok.inj hres
    simpa [withEntries] using h.symm
  exact ⟨E, F, hEF, hFE, hR.symm.trans (hR'.symm.trans hE)⟩

end DenseMatrix

end DenseLinear
