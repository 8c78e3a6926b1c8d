import DenseLinear.Proofs.MachineNumbers
import DenseLinear.Proofs.Rank

/-!
# Rounded reductions

The laws that make a pivot column a unit column hold of binary64 numbers as well. So rounding never
shows in the pivot columns, unless an entry overflows.
-/

namespace DenseLinear

theorem zeroLaws_binary64 : ZeroLaws Float (fun x => x.isFinite = true) Binary64.IsZero where
  not_significant := Binary64.not_significant_of_isZero
  not_isZero_one := Binary64.not_isZero_one
  div_self := Binary64.div_self
  mul_one := Binary64.mul_one
  sub_self := Binary64.isZero_sub_self
  mul_zero := Binary64.isZero_mul
  zero_div := Binary64.isZero_div
  sub_zero := Binary64.sub_zero
  zero_sub_zero := Binary64.isZero_sub

namespace DenseMatrix

/-- Exact fields and binary64 numbers obey the laws. Wherever they hold, and as long as all entries
are finite, the reported columns increase, there are no more of them than rows or columns, and the
`k`-th one is the `k`-th unit vector up to the signs of its zeros. -/
theorem rref_unit_columns :
    (∀ (K : Type) [Field K] [LinearOrder K] [IsStrictOrderedRing K],
      ZeroLaws K (fun _ => True) (· = 0)) ∧
    ZeroLaws Float (fun x => x.isFinite = true) (fun x => x = 0 ∨ x = -0) ∧
    ∀ (α : Type) [Scalar α] (Finite IsZero : α → Prop), ZeroLaws α Finite IsZero →
      ∀ A : DenseMatrix α, A.entries.StaysFinite Finite →
        ∃ (R : Mat α A.height A.width) (pivots : List (Fin A.width × Fin A.height)),
          A.rref.result = .ok (A.withEntries R) ∧
          A.rref.events = pivots.map (fun p => .pivot p.1 p.2) ∧
          (pivots.map (·.1)).Pairwise (· < ·) ∧ pivots.length ≤ min A.height A.width ∧
          R.UnitUpToSign IsZero (pivots.map (·.1)) := by
  refine ⟨zeroLaws_exact, zeroLaws_binary64, ?_⟩
  intro α _ Finite IsZero laws A hA
  exact ⟨A.entries.rref, A.entries.reduction.pivots, rfl, events_withReduction A _,
    (A.entries.reductionUpTo_ordered A.width le_rfl).increasing,
    le_min A.entries.cursor_le_rows A.entries.cursor_le_columns,
    Mat.reductionUpTo_unitUpToSign laws hA A.width le_rfl⟩

/-- The second column is twice the first, and is skipped. -/
def rounded : Mat Float 3 4 :=
  .ofFn ![![0.1, 0.2, 0.3, 0.7], ![0.3, 0.6, -0.9, 5], ![-0.7, -1.4, 0.9, 1 / 3]]

theorem rref_rounded :
    let A : DenseMatrix Float := ⟨3, 4, Nat.succ_pos 2, Nat.succ_pos 3, rounded⟩
    ZeroLaws Float (fun x => x.isFinite = true) (fun x => x = 0 ∨ x = -0) ∧
    rounded.StaysFinite (fun x => x.isFinite = true) ∧
    A.rref.events = [.pivot 0 0, .pivot 2 1, .pivot 3 2] ∧
    ∃ (R : Mat Float 3 4) (pivots : List (Fin 4 × Fin 3)),
      A.rref.result = .ok (A.withEntries R) ∧
      A.rref.events = pivots.map (fun p => .pivot p.1 p.2) ∧
      R.UnitUpToSign (fun x => x = 0 ∨ x = -0) (pivots.map (·.1)) := by
  intro A
  have hfinite : rounded.StaysFinite (fun x => x.isFinite = true) := by decide +kernel
  have hevents : A.rref.events = [.pivot 0 0, .pivot 2 1, .pivot 3 2] := by decide +kernel
  obtain ⟨_, laws, hreduced⟩ := rref_unit_columns
  obtain ⟨R, pivots, hresult, hpivots, _, _, hunit⟩ := hreduced Float _ _ laws A hfinite
  exact ⟨laws, hfinite, hevents, R, pivots, hresult, hpivots, hunit⟩

end DenseMatrix

end DenseLinear
