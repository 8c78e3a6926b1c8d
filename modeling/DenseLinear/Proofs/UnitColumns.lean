import DenseLinear.Proofs.Exact
import DenseLinear.RowReduction

/-!
# Pivot columns

The pivots lie in increasing columns, no more of them than there are rows. Each pivot column ends as
a unit column, to the last bit but for the signs of its zeros, although everything else may be
rounded. Its pivot is divided by itself, and each other entry has itself taken away. A later step
finds zeros there in both rows that it exchanges; divided by the new pivot and multiplied by whatever
is to be cleared they stay zeros, and zeros change no entry of the column when they are taken away.
All this needs a few laws of the arithmetic, which exact fields have.
-/

namespace DenseLinear

namespace Reduction

variable {α : Type} {m n : Nat}

def columns (s : Reduction α m n) : List (Fin n) := s.pivots.map (·.1)

theorem length_columns (s : Reduction α m n) : s.columns.length = s.cursor :=
  List.length_map ..

/-- The pivots found in the first `k` columns. -/
structure Ordered (k : Nat) (s : Reduction α m n) : Prop where
  cursor_le : s.cursor ≤ m
  increasing : s.columns.Pairwise (· < ·)
  bounded : ∀ c ∈ s.columns, c.val < k

end Reduction

theorem getElem?_append_singleton_eq_some {β : Type} {l : List β} {a b : β} {i : Nat} :
    (l ++ [a])[i]? = some b ↔ l[i]? = some b ∨ (i = l.length ∧ a = b) := by
  grind

/-- What the arithmetic does to one and to its zeros, of which there may be several. No finite number
is rounded there. -/
structure ZeroLaws (α : Type) [Scalar α] (Finite IsZero : α → Prop) : Prop where
  not_significant : ∀ {z}, IsZero z → ¬Significant z
  not_isZero_one : ¬IsZero 1
  div_self : ∀ {x}, Finite x → ¬IsZero x → x / x = 1
  mul_one : ∀ {x}, Finite x → x * 1 = x
  sub_self : ∀ {x}, Finite x → IsZero (x - x)
  mul_zero : ∀ {x z}, Finite x → IsZero z → IsZero (x * z)
  zero_div : ∀ {z x}, IsZero z → Finite x → ¬IsZero x → IsZero (z / x)
  sub_zero : ∀ {x z}, Finite x → ¬IsZero x → IsZero z → x - z = x
  zero_sub_zero : ∀ {y z}, IsZero y → IsZero z → IsZero (y - z)

theorem zeroLaws_exact (K : Type) [Field K] [LinearOrder K] [IsStrictOrderedRing K] :
    ZeroLaws K (fun _ => True) (· = 0) where
  not_significant hz := hz ▸ not_significant_zero
  not_isZero_one := one_ne_zero
  div_self _ hx := div_self hx
  mul_one _ := mul_one _
  sub_self _ := sub_self _
  mul_zero _ hz := by rw [hz, mul_zero]
  zero_div hz _ _ := by rw [hz, zero_div]
  sub_zero _ _ hz := by rw [hz, sub_zero]
  zero_sub_zero hy hz := by rw [hy, hz, sub_zero]

namespace Mat

section

variable {α : Type} [Scalar α] {m n : Nat}

theorem reduceColumn_ordered {c : Fin n} {s : Reduction α m n} (hs : s.Ordered c) :
    (reduceColumn c s).Ordered (c + 1) := by
  rcases reduceColumn_cases c s with ⟨he, _⟩ | ⟨h, r, _, _, he⟩
  · rw [he]
    exact ⟨hs.cursor_le, hs.increasing, fun d hd => Nat.lt_succ_of_lt (hs.bounded d hd)⟩
  · rw [he]
    refine ⟨?_, ?_, ?_⟩
    · simpa [Reduction.cursor] using h
    · simp only [Reduction.columns, List.map_append, List.map_singleton]
      refine List.pairwise_append.mpr ⟨hs.increasing, List.pairwise_singleton _ _, ?_⟩
      intro d hd e heq
      rw [List.mem_singleton.mp heq]
      exact hs.bounded d hd
    · intro d hd
      simp only [Reduction.columns, List.map_append, List.map_singleton, List.mem_append,
        List.mem_singleton] at hd
      rcases hd with hd | rfl
      · exact Nat.lt_succ_of_lt (hs.bounded d hd)
      · exact Nat.lt_succ_self _

theorem reductionUpTo_ordered (A : Mat α m n) (k : Nat) (h : k ≤ n) :
    (A.reductionUpTo k h).Ordered k := by
  refine afterSteps_induction (fun k (s : Reduction α m n) => s.Ordered k) ?_ ?_ k h
  · exact ⟨Nat.zero_le m, List.Pairwise.nil, fun _ hc => nomatch hc⟩
  · intro c s hs
    exact reduceColumn_ordered hs

end

variable {α : Type} [Scalar α] {Finite IsZero : α → Prop} {m n : Nat} {A R : Mat α m n}
  {cols : List (Fin n)}

/-- The `k`-th of the columns is one in row `k` and has zeros of any sign in all other rows. -/
structure UnitUpToSign (IsZero : α → Prop) (R : Mat α m n) (cols : List (Fin n)) : Prop where
  one : ∀ (i : Fin m) c, cols[i.val]? = some c → R i c = 1
  zero : ∀ (i : Fin m) (k : Nat) c, cols[k]? = some c → i.val ≠ k → IsZero (R i c)

/-- As long as there are rows left for a pivot, all entries are finite. -/
def StaysFinite (Finite : α → Prop) (A : Mat α m n) : Prop :=
  ∀ k (h : k < n), (A.reductionUpTo k h.le).cursor < m →
    ∀ i j, Finite ((A.reductionUpTo k h.le).matrix i j)

instance [DecidablePred Finite] : Decidable (A.StaysFinite Finite) := by
  unfold StaysFinite
  infer_instance

theorem UnitUpToSign.swapRows (h : R.UnitUpToSign IsZero cols) {k r : Fin m}
    (hk : cols.length ≤ k) (hr : cols.length ≤ r) :
    (R.swapRows k r).UnitUpToSign IsZero cols := by
  constructor
  · intro i c hc
    have hi : i.val < cols.length := (List.getElem?_eq_some_iff.mp hc).1
    rw [swapRows_apply, if_neg (Fin.ne_of_lt (hi.trans_le hk)),
      if_neg (Fin.ne_of_lt (hi.trans_le hr))]
    exact h.one i c hc
  · intro i p c hc hne
    have hp : p < cols.length := (List.getElem?_eq_some_iff.mp hc).1
    rw [swapRows_apply]
    split_ifs
    · exact h.zero r p c hc (by omega)
    · exact h.zero k p c hc (by omega)
    · exact h.zero i p c hc hne

theorem UnitUpToSign.pivotOn (laws : ZeroLaws α Finite IsZero) (h : R.UnitUpToSign IsZero cols)
    (hfinite : ∀ i j, Finite (R i j)) (hm : cols.length < m) {r : Fin m} (hr : cols.length ≤ r)
    {c : Fin n} (hc : Significant (R r c)) :
    (R.pivotOn ⟨cols.length, hm⟩ r c).UnitUpToSign IsZero (cols ++ [c]) := by
  have hswap := h.swapRows (k := ⟨cols.length, hm⟩) le_rfl hr
  have hswapFinite (i : Fin m) (j : Fin n) : Finite ((R.swapRows ⟨cols.length, hm⟩ r) i j) := by
    rw [swapRows_apply]
    split_ifs <;> exact hfinite _ _
  have hp : ¬IsZero (R r c) := fun hz => laws.not_significant hz hc
  have hone : R r c / R r c = 1 := laws.div_self (hfinite r c) hp
  have hzero (p : Nat) (d : Fin n) (hd : cols[p]? = some d) : IsZero (R r d / R r c) := by
    have hlt : p < cols.length := (List.getElem?_eq_some_iff.mp hd).1
    exact laws.zero_div (h.zero r p d hd (by omega)) (hfinite r c) hp
  constructor
  · intro i d hd
    rw [pivotOn_apply]
    rcases getElem?_append_singleton_eq_some.mp hd with hd | ⟨hi, rfl⟩
    · have hlt : i.val < cols.length := (List.getElem?_eq_some_iff.mp hd).1
      have hfiniteOne : Finite (1 : α) := hswap.one i d hd ▸ hswapFinite i d
      rw [if_neg (Fin.ne_of_lt hlt), hswap.one i d hd]
      exact laws.sub_zero hfiniteOne laws.not_isZero_one
        (laws.mul_zero (hswapFinite i c) (hzero i d hd))
    · rw [if_pos (Fin.ext hi), hone]
  · intro i p d hd hne
    rw [pivotOn_apply]
    rcases getElem?_append_singleton_eq_some.mp hd with hd | ⟨hp, rfl⟩
    · split_ifs
      · exact hzero p d hd
      · exact laws.zero_sub_zero (hswap.zero i p d hd hne)
          (laws.mul_zero (hswapFinite i c) (hzero p d hd))
    · rw [if_neg (fun he => hne ((congrArg Fin.val he).trans hp.symm)), hone,
        laws.mul_one (hswapFinite i c)]
      exact laws.sub_self (hswapFinite i c)

theorem reductionUpTo_unitUpToSign (laws : ZeroLaws α Finite IsZero) (hA : A.StaysFinite Finite)
    (k : Nat) (h : k ≤ n) :
    (A.reductionUpTo k h).matrix.UnitUpToSign IsZero (A.reductionUpTo k h).columns := by
  induction k with
  | zero => constructor <;> simp [reductionUpTo, afterSteps_zero, Reduction.columns]
  | succ k ih =>
    have hs := ih (Nat.le_of_succ_le h)
    have hfinite := hA k h
    have hstep : A.reductionUpTo (k + 1) h =
        reduceColumn ⟨k, h⟩ (A.reductionUpTo k (Nat.le_of_succ_le h)) := rfl
    rw [hstep]
    generalize A.reductionUpTo k (Nat.le_of_succ_le h) = s at hs hfinite
    rcases reduceColumn_cases ⟨k, h⟩ s with ⟨he, _⟩ | ⟨hm, r, hr, hsig, he⟩
    · rwa [he]
    · have hcursor := hfinite hm
      rw [he]
      simp only [← s.length_columns] at hm hr ⊢
      simpa [Reduction.columns] using hs.pivotOn laws hcursor hm hr hsig

end Mat

end DenseLinear
