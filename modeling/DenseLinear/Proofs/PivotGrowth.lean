import DenseLinear.Proofs.Determinant
import DenseLinear.Proofs.Pivot
import DenseLinear.Proofs.Storage.Elimination

/-!
# Growth under elimination

The pivot of a step is the first of the greatest entries left in its column. So no multiple taken of
its row is larger than the row itself, and a step at most doubles the greatest magnitude in the
matrix.
-/

namespace DenseLinear.Mat

section

variable {m : Nat} {β : Type} [LinearOrder β]

/-- A scan of rows in order that moves on to each larger value has left only smaller ones behind. -/
theorem foldl_larger_first (f : Fin m → β) (start : Fin m) (rows : List (Fin m)) (best : Fin m)
    (hb : start ≤ best) (hrows : rows.Pairwise (· < ·)) (hlater : ∀ r ∈ rows, start < r → best < r) :
    let last := rows.foldl (fun b r => if start < r ∧ f b < f r then r else b) best
    (best < last → f best < f last) ∧ ∀ r ∈ rows, start < r → r < last → f r < f last := by
  induction rows generalizing best with
  | nil => simp
  | cons r rows ih =>
    obtain ⟨hr, hrows⟩ := List.pairwise_cons.mp hrows
    rw [List.foldl_cons]
    split_ifs with h
    · obtain ⟨_, hlast, _⟩ := foldl_larger f start rows r h.1.le
      obtain ⟨hfirst, hall⟩ := ih r h.1.le hrows fun p hp _ => hr p hp
      refine ⟨fun _ => h.2.trans_le hlast, ?_⟩
      intro p hp hsp hlt
      rcases List.mem_cons.mp hp with rfl | hp
      · exact hfirst hlt
      · exact hall p hp hsp hlt
    · obtain ⟨hfirst, hall⟩ := ih best hb hrows fun p hp => hlater p (List.mem_cons_of_mem r hp)
      refine ⟨hfirst, ?_⟩
      intro p hp hsp hlt
      rcases List.mem_cons.mp hp with rfl | hp
      · have hle : f p ≤ f best := not_lt.mp fun hless => h ⟨hsp, hless⟩
        exact hle.trans_lt (hfirst ((hlater p List.mem_cons_self hsp).trans hlt))
      · exact hall p hp hsp hlt

end

variable {K : Type} [Field K] [LinearOrder K] {m n : Nat}

theorem abs_lt_largestRow (A : Mat K m n) (start : Fin m) (c : Fin n) {r : Fin m} (hr : start ≤ r)
    (hlt : r < A.largestRow start c) : |A r c| < |A (A.largestRow start c) c| := by
  obtain ⟨hfirst, hall⟩ := foldl_larger_first (fun r => |A r c|) start (List.finRange m) start le_rfl
    (List.pairwise_lt_finRange m) fun _ _ h => h
  rcases hr.eq_or_lt with rfl | hsr
  · exact hfirst hlt
  · exact hall r (List.mem_finRange r) hsr hlt

/-- The chosen row is the first with an entry of the greatest magnitude. -/
theorem isLeast_largestRow (A : Mat K m n) (start : Fin m) (c : Fin n) :
    IsLeast {r | start ≤ r ∧ ∀ q, start ≤ q → |A q c| ≤ |A r c|} (A.largestRow start c) := by
  refine ⟨⟨A.le_largestRow start c, fun q hq => A.abs_le_largestRow start c hq⟩, ?_⟩
  rintro r ⟨hr, hgreatest⟩
  by_contra hlt
  have hless := A.abs_lt_largestRow start c hr (not_le.mp hlt)
  exact hless.not_ge (hgreatest _ (A.le_largestRow start c))

/-- An accepted step, by the matrix after the exchange. -/
theorem eliminationStep_eq_ok {i : Fin n} {s t : Elimination K n}
    (h : eliminationStep i s = .ok t) :
    let B := s.matrix.swapRows i (s.matrix.largestRow i i)
    t.matrix = B.eliminate i (i < ·) fun p => B p i / B i i := by
  rw [eliminationStep_eq rfl] at h
  split_ifs at h
  cases h
  simp only [swapRows_apply_left]

def BoundedBy (A : Mat K m n) (M : K) : Prop := ∀ i j, |A i j| ≤ M

theorem BoundedBy.swapRows {A : Mat K m n} {M : K} (h : A.BoundedBy M) (a b : Fin m) :
    (A.swapRows a b).BoundedBy M := by
  intro i j
  rw [swapRows_apply]
  split_ifs
  · exact h b j
  · exact h a j
  · exact h i j

section

variable [IsStrictOrderedRing K]

/-- After the exchange, each entry below the pivot holds it at most once. -/
theorem abs_factor_le_one (A : Mat K n n) {i p : Fin n} (hp : i < p) :
    let B := A.swapRows i (A.largestRow i i)
    |B p i / B i i| ≤ 1 := by
  intro B
  have hbelow : |B p i| ≤ |B i i| := by
    simp only [B, swapRows_apply_left, swapRows_apply, if_neg hp.ne']
    split_ifs
    · exact A.abs_le_largestRow i i le_rfl
    · exact A.abs_le_largestRow i i hp.le
  rw [abs_div]
  exact div_le_one_of_le₀ hbelow (abs_nonneg _)

theorem BoundedBy.eliminate {A : Mat K m n} {M : K} (h : A.BoundedBy M) {source : Fin m}
    {target : Fin m → Prop} [DecidablePred target] {factor : Fin m → K}
    (hf : ∀ p, target p → |factor p| ≤ 1) :
    (A.eliminate source target factor).BoundedBy (2 * M) := by
  intro p q
  have hM : 0 ≤ M := (abs_nonneg _).trans (h p q)
  rw [eliminate_apply]
  split_ifs with hp
  · calc |A p q - factor p * A source q|
        ≤ |A p q| + |factor p * A source q| := abs_sub _ _
      _ = |A p q| + |factor p| * |A source q| := by rw [abs_mul]
      _ ≤ M + 1 * M := add_le_add (h p q)
        (mul_le_mul (hf p hp) (h source q) (abs_nonneg _) zero_le_one)
      _ = 2 * M := by ring
  · exact (h p q).trans (by linarith)

variable {A : Mat K n n} {M : K}

theorem BoundedBy.eliminationStep {i : Fin n} {s t : Elimination K n} (hs : s.matrix.BoundedBy M)
    (h : eliminationStep i s = .ok t) : t.matrix.BoundedBy (2 * M) := by
  rw [eliminationStep_eq_ok h]
  exact (hs.swapRows _ _).eliminate fun p hp => s.matrix.abs_factor_le_one hp

theorem BoundedBy.eliminationUpTo (hA : A.BoundedBy M) {k : Nat} {h : k ≤ n} {s : Elimination K n}
    (e : A.eliminationUpTo k h = .ok s) : s.matrix.BoundedBy (2 ^ k * M) := by
  refine tryAfterSteps_induction (fun k s => s.matrix.BoundedBy (2 ^ k * M)) ?_ ?_ e
  · rwa [pow_zero, one_mul]
  · intro i s t hs ht
    rw [pow_succ', mul_assoc]
    exact hs.eliminationStep ht

end

theorem exists_isGreatest_abs (A : Mat K m n) (hm : 0 < m) (hn : 0 < n) :
    ∃ M, IsGreatest {x | ∃ i j, |A i j| = x} M := by
  obtain ⟨⟨i, j⟩, -, h⟩ := Finset.exists_max_image Finset.univ (fun p : Fin m × Fin n => |A p.1 p.2|)
    ⟨(⟨0, hm⟩, ⟨0, hn⟩), Finset.mem_univ _⟩
  refine ⟨|A i j|, ⟨i, j, rfl⟩, ?_⟩
  rintro x ⟨p, q, rfl⟩
  exact h (p, q) (Finset.mem_univ _)

/-- A run that is accepted with a known matrix. -/
theorem exists_of_toOption {ε α : Type} {x : Except ε (Elimination α n)} {B : Mat α n n}
    (h : x.toOption.map Elimination.matrix = some B) : ∃ s, x = .ok s ∧ s.matrix = B := by
  cases x with
  | error e => cases h
  | ok s => exact ⟨s, rfl, Option.some.inj h⟩

end DenseLinear.Mat

namespace DenseLinear.DenseMatrix

variable {K : Type} [Field K] [LinearOrder K] [IsStrictOrderedRing K]

/-- At each step that the determinant reaches, the scan of the column finds the first of its
greatest entries. With that row in place, each row below takes the pivot row at most once, and the
step leaves no entry greater than `2 ^ (i + 1)` times the greatest at the start. -/
theorem elimination_growth (A : DenseMatrix K) (S : Mat K A.height A.height)
    (hS : A.toSquare = .ok S) :
    (∀ s, S.elimination = .ok s → A.det.result = .ok s.det) ∧
    (∀ e, S.elimination = .error e → A.det.result = .ok 0) ∧
    ∃ M, IsGreatest {x | ∃ p q, |S p q| = x} M ∧
      ∀ (i : Fin A.height) (s : Elimination K A.height), S.eliminationUpTo i i.isLt.le = .ok s →
        let r := s.matrix.largestRow i i
        let B := s.matrix.swapRows i r
        IsLeast {p | i ≤ p ∧ ∀ q, i ≤ q → |s.matrix q i| ≤ |s.matrix p i|} r ∧
        s.matrix.stored.largestRow i i = .ok r.val ∧
        (∀ p, i < p → |B p i / B i i| ≤ 1) ∧
        ∀ t, S.eliminationUpTo (i + 1) i.isLt = .ok t →
          t.matrix = B.eliminate i (i < ·) (fun p => B p i / B i i) ∧
          B.stored.clearBelow i (B i i) = .ok t.matrix.stored ∧
          ∀ p q, |t.matrix p q| ≤ 2 ^ (i.val + 1) * M := by
  have hresult : A.det.result = .ok S.det := by
    simp only [det, Traced.result_bind, Traced.result_lift, hS]
    rfl
  obtain ⟨M, hM⟩ := S.exists_isGreatest_abs A.height_pos A.height_pos
  refine ⟨?_, ?_, M, hM, ?_⟩
  · intro s hs
    rw [hresult, Mat.det, hs]
  · intro e he
    rw [hresult, Mat.det_of_elimination_error he]
  intro i s hs r B
  refine ⟨s.matrix.isLeast_largestRow i i, s.matrix.largestRow_stored i i,
    fun p hp => s.matrix.abs_factor_le_one hp, ?_⟩
  intro t ht
  obtain ⟨s', hs', hstep⟩ := tryAfterSteps_succ_eq_ok.mp ht
  obtain rfl : s = s' := Except.ok.inj (hs.symm.trans hs')
  have hmatrix : t.matrix = B.eliminate i (i < ·) fun p => B p i / B i i :=
    Mat.eliminationStep_eq_ok hstep
  have hbound : S.BoundedBy M := fun p q => hM.2 ⟨p, q, rfl⟩
  refine ⟨hmatrix, ?_, hbound.eliminationUpTo ht⟩
  rw [hmatrix]
  exact B.clearBelow_stored i (B i i)

/-- All candidates of a step are equally great, and the last column doubles at every step. -/
def doubling : Mat ℚ 3 3 := .ofFn ![![1, 0, 1], ![-1, 1, 1], ![-1, -1, 1]]

theorem elimination_growth_doubling :
    let A : DenseMatrix ℚ := ⟨3, 3, Nat.succ_pos 2, Nat.succ_pos 2, doubling⟩
    A.toSquare = .ok doubling ∧ ∃ s t, doubling.eliminationUpTo 1 (by decide) = .ok s ∧
      doubling.eliminationUpTo 2 (by decide) = .ok t ∧
      IsLeast {p : Fin 3 | 1 ≤ p ∧ ∀ q, 1 ≤ q → |s.matrix q 1| ≤ |s.matrix p 1|} 1 ∧
      (∀ p q, |t.matrix p q| ≤ 2 ^ 2 * 1) ∧ t.matrix 2 2 = 2 ^ 2 * 1 := by
  intro A
  have hA : A.toSquare = .ok doubling := toSquare_mk _ _ _
  have hone : IsGreatest {x | ∃ p q, |doubling p q| = x} 1 := by
    refine ⟨⟨0, 0, by decide +kernel⟩, ?_⟩
    rintro x ⟨p, q, rfl⟩
    revert p q
    decide +kernel
  obtain ⟨s, hs, hs'⟩ := Mat.exists_of_toOption (x := doubling.eliminationUpTo 1 (by decide))
    (B := .ofFn ![![1, 0, 1], ![0, 1, 2], ![0, -1, 2]]) (by decide +kernel)
  obtain ⟨t, ht, ht'⟩ := Mat.exists_of_toOption (x := doubling.eliminationUpTo 2 (by decide))
    (B := .ofFn ![![1, 0, 1], ![0, 1, 2], ![0, 0, 4]]) (by decide +kernel)
  obtain ⟨-, -, M, hM, hsteps⟩ := elimination_growth A doubling hA
  obtain rfl : M = 1 := hM.unique hone
  obtain ⟨hleast, -, -, hnext⟩ := hsteps (1 : Fin 3) s hs
  obtain ⟨-, -, hbound⟩ := hnext t ht
  have hrow : s.matrix.largestRow 1 1 = 1 := by
    rw [hs']
    decide +kernel
  rw [hrow] at hleast
  refine ⟨hA, s, t, hs, ht, hleast, hbound, ?_⟩
  rw [ht']
  decide +kernel

end DenseLinear.DenseMatrix
