import DenseLinear.Proofs.LinearSystem
import DenseLinear.Proofs.NullSpace
import DenseLinear.Proofs.Rank
import DenseLinear.Proofs.Singularity

/-!
# Full rank and invertibility

The rank and the inverse come from eliminations that choose their pivots differently: one takes the
first significant candidate, the other the largest. Each is right about the columns it meets without
any candidate. So if they disagree over exact scalars, then one of them turned away candidates that
are small but not all zero. Over rounded scalars they can disagree without that.
-/

namespace DenseLinear

namespace Mat

section

variable {α : Type} [Scalar α] {n : Nat}

/-- The inversion gives up at a column only if all candidates for its pivot are zero. -/
def StallsOnlyAtZeros (A : Mat α n n) : Prop :=
  ∀ (i : Fin n) (s : Augmented α n), A.inversionUpTo i i.is_le' = .ok s →
    (∀ r, i ≤ r → Negligible (s.left r i)) → ∀ r, i ≤ r → s.left r i = 0

instance [DecidableEq α] (A : Mat α n n) : Decidable A.StallsOnlyAtZeros := by
  unfold StallsOnlyAtZeros
  refine @Nat.decidableForallFin _ _ fun i => ?_
  cases A.inversionUpTo i i.is_le' with
  | error e => exact .isTrue fun s hs => nomatch hs
  | ok t =>
    apply decidable_of_iff
      ((∀ r, i ≤ r → Negligible (t.left r i)) → ∀ r, i ≤ r → t.left r i = 0)
    simp

end

variable {K : Type} [Field K] [LinearOrder K] [IsStrictOrderedRing K] {n : Nat} {A : Mat K n n}

theorem inversionUpTo_rowEquivalent {k : Nat} {h : k ≤ n} {s : Augmented K n}
    (e : A.inversionUpTo k h = .ok s) : RowEquivalent A s.left := by
  refine tryAfterSteps_induction (fun _ (s : Augmented K n) => RowEquivalent A s.left) ?_ ?_ e
  · exact RowEquivalent.refl A
  · intro i s t hs ht
    obtain ⟨r, _, hne, hl, _⟩ := inversionStep_eq_ok ht
    rw [hl]
    exact hs.trans (rowEquivalent_pivotOn _ i r hne)

/-- The solution that a column without a pivot gives, after unit columns alone: one in its own
place, and less its entries in the places before. -/
def stalledSolution (M : Mat K n n) (i : Fin n) : Vec K n :=
  .ofFn fun j => if j < i then -M j i else if j = i then 1 else 0

omit [IsStrictOrderedRing K] in
theorem mulVec_stalledSolution_apply {M : Mat K n n} {i : Fin n}
    (hunit : ∀ j, j < i → ∀ p, M p j = if p = j then 1 else 0) (p : Fin n) :
    (M.mulVec (M.stalledSolution i)) p = if p < i then 0 else M p i := by
  have hbefore : ∀ j < i, M p j * (M.stalledSolution i) j = if p = j then -M j i else 0 := by
    intro j hj
    rw [hunit j hj, stalledSolution, Vec.entry_ofFn, if_pos hj, ite_mul, one_mul, zero_mul]
  have hself : M p i * (M.stalledSolution i) i = M p i := by
    rw [stalledSolution, Vec.entry_ofFn, if_neg (lt_irrefl i), if_pos rfl, mul_one]
  have hafter : ∀ j, i < j → M p j * (M.stalledSolution i) j = 0 := by
    intro j hj
    rw [stalledSolution, Vec.entry_ofFn, if_neg hj.not_gt, if_neg hj.ne', mul_zero]
  rw [mulVec_entry, sum_eq_before_add_after i, sumBefore_congr hbefore, hself,
    sumAfter_eq_zero hafter, add_zero, sumBefore_eq, Finset.sum_ite_eq]
  simp only [Finset.mem_Iio]
  split_ifs
  · exact neg_add_cancel _
  · exact zero_add _

omit [IsStrictOrderedRing K] in
theorem mulVec_stalledSolution {M : Mat K n n} {i : Fin n}
    (hunit : ∀ j, j < i → ∀ p, M p j = if p = j then 1 else 0)
    (hzero : ∀ p, i ≤ p → M p i = 0) : M.mulVec (M.stalledSolution i) = .replicate n 0 := by
  ext p
  rw [mulVec_stalledSolution_apply hunit, Vec.replicate_apply]
  split_ifs with hp
  · rfl
  · exact hzero p (not_lt.mp hp)

/-- A step without any candidate for a pivot shows that there is no inverse. -/
theorem exists_kernel_of_stalled {i : Fin n} {s : Augmented K n}
    (hs : A.inversionUpTo i i.isLt.le = .ok s) (hzero : ∀ r, i ≤ r → s.left r i = 0) :
    ∃ v, v ≠ .replicate n 0 ∧ A.mulVec v = .replicate n 0 := by
  refine ⟨s.left.stalledSolution i, ?_, ?_⟩
  · intro hv
    have hi : (s.left.stalledSolution i) i = 0 := by rw [hv, Vec.replicate_apply]
    simp [stalledSolution] at hi
  · rw [(inversionUpTo_rowEquivalent hs).mulVec_eq_zero_iff]
    exact mulVec_stalledSolution (inversionUpTo_column hs) hzero

/-- With a pivot for every column the reduced form is the identity. -/
theorem rref_eq_identity (h : A.reduction.cursor = n) : A.rref = identity n := by
  have hordered := A.reductionUpTo_ordered n le_rfl
  have hlength : A.reduction.columns.length = n := (Reduction.length_columns _).trans h
  have hrange : A.reduction.columns.map Fin.val = List.range n := by
    apply eq_range_of_pairwise_lt
    · rw [List.length_map, hlength]
    · exact List.pairwise_map.mpr hordered.increasing
    · intro a ha
      obtain ⟨c, _, rfl⟩ := List.mem_map.mp ha
      exact c.isLt
  ext p j
  have hj : A.reduction.columns[j.val]? = some j := by
    have hlt : j.val < A.reduction.columns.length := hlength.symm ▸ j.isLt
    rw [List.getElem?_eq_getElem hlt, Option.some.injEq]
    apply Fin.ext
    have hget := List.getElem_of_eq hrange (i := j.val) (by rwa [List.length_map])
    rwa [List.getElem_map, List.getElem_range] at hget
  rw [identity_apply]
  exact (A.reductionUpTo_unitColumns n le_rfl j j hj p).trans (if_congr Fin.ext_iff.symm rfl rfl)

/-- If all columns have a pivot, the inversion gives up only where it turns away candidates that
are not zero. -/
theorem inverse_ne_none_of_pivots (h : A.reduction.cursor = n) (hA : A.StallsOnlyAtZeros) :
    A.inverse ≠ none := by
  intro hnone
  obtain ⟨i, s, hs, hsmall⟩ := inverse_eq_none_iff.mp hnone
  obtain ⟨v, hv, hzero⟩ := exists_kernel_of_stalled hs (hA i s hs hsmall)
  apply hv
  rwa [A.rref_rowEquivalent.mulVec_eq_zero_iff, rref_eq_identity h, identity_mulVec] at hzero

/-- If a matrix has an inverse, the reduction leaves out a column only where it turns away
candidates that are not zero. -/
theorem rank_eq_of_inverse {B : Mat K n n} (h : A.inverse = some B) (hA : A.SkipsOnlyZeros) :
    A.rank = n := by
  by_contra hne
  have hlt : A.pivotColumns.length < Fintype.card (Fin n) := by
    rw [length_pivotColumns, Fintype.card_fin]
    exact lt_of_le_of_ne A.rank_le_rows hne
  obtain ⟨j, hj⟩ : ∃ j, j ∉ A.pivotColumns := by
    by_contra hall
    push Not at hall
    have hcard := Fintype.card_le_of_surjective A.pivotColumns.get fun j =>
      List.mem_iff_get.mp (hall j)
    rw [Fintype.card_fin (List.length _)] at hcard
    omega
  have hkernel := mulVec_eq_zero_of_mem_freeSolutions hA
    (List.mem_map_of_mem (f := A.rref.freeSolution A.pivotColumns) (mem_freeColumns.mpr hj))
  have hnonzero : A.rref.freeSolution A.pivotColumns j ≠ .replicate n 0 := by
    intro hv
    have hone := freeSolution_self (R := A.rref) hj
    rw [hv, Vec.replicate_apply] at hone
    exact zero_ne_one hone
  rw [inverse_eq_none_of_kernel hnonzero hkernel] at h
  cases h

end Mat

namespace DenseMatrix

section

variable {α : Type} [Scalar α]

theorem independentColumns_iff (A : DenseMatrix α) :
    A.independentColumns.result = .ok true ↔ A.rank.result = .ok A.width := by
  rw [independentColumns, rank, result_withReduction, result_withReduction, Except.ok.injEq,
    Except.ok.injEq, decide_eq_true_iff]
  rfl

variable {n : Nat} (h h' : 0 < n) (S : Mat α n n)

theorem inverse_mk_eq_ok_iff :
    (∃ B, (mk n n h h' S).inverse = .ok B) ↔ S.inverse.isSome = true := by
  rw [inverse_mk]
  cases S.inverse <;> simp

theorem inverse_mk_eq_singular_iff :
    (mk n n h h' S).inverse = .error .singular ↔ S.inverse.isNone = true := by
  rw [inverse_mk]
  cases S.inverse <;> simp

end

variable {K : Type} [Field K] [LinearOrder K] [IsStrictOrderedRing K]

/-- Linear independence of the columns is full rank, over any scalars. Over exact scalars, full rank
by pivots without an inverse means that the inversion turned away candidates that are not all zero,
and an inverse without full rank means that the reduction did. If neither does, the two tests
agree. -/
theorem full_rank_iff_inverse {α : Type} [Scalar α] (M : DenseMatrix α) (A : DenseMatrix K)
    (S : Mat K A.height A.height) (hS : A.toSquare = .ok S) :
    (M.independentColumns.result = .ok true ↔ M.rank.result = .ok M.width) ∧
    (A.rank.result = .ok A.height → A.entries.residualRows = [] →
      A.inverse = .error .singular →
      ∃ (i : Fin A.height) (s : Augmented K A.height), S.inversionUpTo i i.isLt.le = .ok s ∧
        (∀ r, i ≤ r → |s.left r i| < 1 / 10 ^ 10) ∧ ∃ r, i ≤ r ∧ s.left r i ≠ 0) ∧
    (A.rank.result ≠ .ok A.height → (∃ B, A.inverse = .ok B) →
      ∃ c : Fin A.width, let s := A.entries.reductionUpTo c c.isLt.le
        (∀ r : Fin A.height, s.cursor ≤ r → |s.matrix r c| ≤ 1 / 10 ^ 10) ∧
          ∃ r : Fin A.height, s.cursor ≤ r ∧ s.matrix r c ≠ 0) ∧
    (A.entries.SkipsOnlyZeros → S.StallsOnlyAtZeros →
      (A.rank.result = .ok A.height ↔ ∃ B, A.inverse = .ok B)) := by
  refine ⟨M.independentColumns_iff, ?_⟩
  obtain ⟨m, n, hm, hn, E⟩ := A
  obtain rfl : n = m := width_eq_of_toSquare hS
  obtain rfl : E = S := Except.ok.inj ((toSquare_mk hm hn E).symm.trans hS)
  have hrank : (mk n n hm hn E).rank.result = .ok n ↔ E.rank = n := by simp [rank]
  have hcursor (hfull : E.rank = n) (hres : E.residualRows = []) : E.reduction.cursor = n := by
    rwa [E.rank_eq_kept_add_residual, E.length_keptRows, hres] at hfull
  simp only [ne_eq, hrank, inverse_mk_eq_ok_iff, inverse_mk_eq_singular_iff,
    Option.isNone_iff_eq_none, Option.isSome_iff_exists]
  refine ⟨?_, ?_, ?_⟩
  · intro hfull hres hsing
    by_contra hall
    push Not at hall
    apply Mat.inverse_ne_none_of_pivots (hcursor hfull hres) _ hsing
    exact hall
  · rintro hdef ⟨B, hB⟩
    by_contra hall
    push Not at hall
    apply hdef (Mat.rank_eq_of_inverse hB _)
    intro c hskip
    exact hall c fun r hr => not_lt.mp (hskip r hr)
  · intro hskips hstalls
    constructor
    · intro hfull
      have hne := Mat.inverse_ne_none_of_pivots (hcursor hfull (Mat.residualRows_eq_nil hskips))
        hstalls
      exact Option.ne_none_iff_exists'.mp hne
    · rintro ⟨B, hB⟩
      exact Mat.rank_eq_of_inverse hB hskips

/-- The small pivot of the first row leaves `1 / 10` beside it, the large one of the second row
leaves `-2 * 10⁻¹¹`. -/
def graded : DenseMatrix ℚ :=
  ⟨2, 2, Nat.two_pos, Nat.two_pos, .ofFn ![![1 / (5 * 10 ^ 9), 1], ![1, 5 * 10 ^ 9 + 1 / 10]]⟩

/-- Under the first pivot the second column keeps `±9 * 10⁻¹¹`, under a larger one twice that. -/
def veiled : DenseMatrix ℚ :=
  ⟨3, 3, faint.height_pos, faint.height_pos,
    .ofFn ![![1, 0, 0], ![2, -9 / 10 ^ 11, 0], ![2, 9 / 10 ^ 11, 1]]⟩

theorem full_rank_iff_inverse_dependent :
    let A : DenseMatrix ℚ := ⟨3, 3, Nat.succ_pos 2, Nat.succ_pos 2, dependent⟩
    (A.toSquare = .ok dependent ∧ A.entries.SkipsOnlyZeros ∧ dependent.StallsOnlyAtZeros ∧
      (A.rank.result = .ok 3 ↔ ∃ B, A.inverse = .ok B)) ∧
    (∃ (i : Fin 2) (s : Augmented ℚ 2), graded.entries.inversionUpTo i i.isLt.le = .ok s ∧
      (∀ r, i ≤ r → |s.left r i| < 1 / 10 ^ 10) ∧ ∃ r, i ≤ r ∧ s.left r i ≠ 0) ∧
    ∃ c : Fin 3, let s := veiled.entries.reductionUpTo c c.isLt.le
      (∀ r : Fin 3, s.cursor ≤ r → |s.matrix r c| ≤ 1 / 10 ^ 10) ∧
        ∃ r : Fin 3, s.cursor ≤ r ∧ s.matrix r c ≠ 0 := by
  have hskips : dependent.SkipsOnlyZeros := by decide +kernel
  have hstalls : dependent.StallsOnlyAtZeros := by decide +kernel
  have hgraded : graded.rank.result = .ok 2 ∧ graded.entries.residualRows = [] ∧
      graded.entries.inverse.isNone = true := by decide +kernel
  have hveiled : veiled.rank.result ≠ .ok 3 ∧ veiled.entries.inverse.isSome = true := by
    decide +kernel
  intro A
  have hA : A.toSquare = .ok dependent := toSquare_mk _ _ _
  refine ⟨⟨hA, hskips, hstalls, ?_⟩, ?_, ?_⟩
  · exact (full_rank_iff_inverse A A dependent hA).2.2.2 hskips hstalls
  · exact (full_rank_iff_inverse A graded _ (toSquare_mk _ _ _)).2.1 hgraded.1 hgraded.2.1
      ((inverse_mk_eq_singular_iff _ _ _).mpr hgraded.2.2)
  · exact (full_rank_iff_inverse A veiled _ (toSquare_mk _ _ _)).2.2.1 hveiled.1
      ((inverse_mk_eq_ok_iff _ _ _).mpr hveiled.2)

def gradedFloat : DenseMatrix Float :=
  ⟨2, 2, Nat.two_pos, Nat.two_pos, .ofFn ![![2e-10, 1], ![1, 5000000000.1]]⟩

def veiledFloat : DenseMatrix Float :=
  ⟨3, 3, veiled.height_pos, veiled.width_pos, .ofFn ![![1, 0, 0], ![2, -9e-11, 0], ![2, 9e-11, 1]]⟩

/-- The rows are multiples of each other but for one rounding. -/
def roundedFloat : DenseMatrix Float :=
  ⟨2, 2, Nat.two_pos, Nat.two_pos,
    .ofFn ![![1, 1125899906842624 / 49], ![49, 1125899906842624]]⟩

/-- The third machine matrix has a pivot for every column, and what the inversion finds in the
second column is zero. -/
theorem rank_disagrees_with_inverse :
    (graded.rank.result = .ok 2 ∧ graded.inverse = .error .singular) ∧
    (veiled.rank.result = .ok 2 ∧ ∃ B, veiled.inverse = .ok B) ∧
    (∀ M ∈ [gradedFloat, veiledFloat, roundedFloat], ∀ i j, (M.entries i j).isFinite = true) ∧
    (gradedFloat.rank.result = .ok 2 ∧ gradedFloat.inverse = .error .singular) ∧
    (veiledFloat.rank.result = .ok 2 ∧ ∃ B, veiledFloat.inverse = .ok B) ∧
    (roundedFloat.rank.result = .ok 2 ∧ roundedFloat.inverse = .error .singular ∧
      roundedFloat.entries.reduction.pivots.length = 2 ∧
      ∃ s, roundedFloat.entries.inversionUpTo 1 (Nat.le_add_left 1 1) = .ok s ∧
        (s.left (1 : Fin 2) (1 : Fin 2) == 0) = true) := by
  have hgraded : graded.rank.result = .ok 2 ∧ graded.entries.inverse.isNone = true ∧
      gradedFloat.rank.result = .ok 2 ∧ gradedFloat.entries.inverse.isNone = true := by
    decide +kernel
  have hveiled : veiled.rank.result = .ok 2 ∧ veiled.entries.inverse.isSome = true ∧
      veiledFloat.rank.result = .ok 2 ∧ veiledFloat.entries.inverse.isSome = true := by
    decide +kernel
  have hrounded : roundedFloat.rank.result = .ok 2 ∧
      roundedFloat.entries.inverse.isNone = true ∧
      roundedFloat.entries.reduction.pivots.length = 2 := by decide +kernel
  have hfinite : ∀ M ∈ [gradedFloat, veiledFloat, roundedFloat], ∀ i j,
      (M.entries i j).isFinite = true := by decide +kernel
  have hok : (roundedFloat.entries.inversionUpTo 1 (Nat.le_add_left 1 1)).isOk = true := by decide +kernel
  obtain ⟨s, hs⟩ := exists_eq_ok_of_isOk hok
  refine ⟨⟨hgraded.1, (inverse_mk_eq_singular_iff _ _ _).mpr hgraded.2.1⟩,
    ⟨hveiled.1, (inverse_mk_eq_ok_iff _ _ _).mpr hveiled.2.1⟩, hfinite,
    ⟨hgraded.2.2.1, (inverse_mk_eq_singular_iff _ _ _).mpr hgraded.2.2.2⟩,
    ⟨hveiled.2.2.1, (inverse_mk_eq_ok_iff _ _ _).mpr hveiled.2.2.2⟩,
    hrounded.1, (inverse_mk_eq_singular_iff _ _ _).mpr hrounded.2.1, hrounded.2.2, s, hs, ?_⟩
  have hzero : ((roundedFloat.entries.inversionUpTo 1 (Nat.le_add_left 1 1)).toOption.map
      fun s => s.left (1 : Fin 2) (1 : Fin 2) == 0) = some true := by decide +kernel
  rw [hs] at hzero
  exact Option.some.inj hzero

end DenseMatrix

end DenseLinear
