import DenseLinear.Proofs.Inverse
import DenseLinear.Proofs.NullSpace
import DenseLinear.Spectrum.Eigenspace

/-!
# Embeddings of ordered fields

An embedding of ordered fields respects the operations, the order and the tolerance. So the
elimination of a matrix takes the same steps over the larger field, and what can be evaluated over
the rational numbers holds over the real numbers as well.
-/

namespace DenseLinear

section

variable {σ τ ε ε' : Type} {n : Nat} {step : Fin n → σ → Except ε σ}
  {step' : Fin n → τ → Except ε' τ}

/-- A computation whose steps are images of those of another is its image. -/
theorem tryAfterSteps_image (f : σ → τ) (e : ε → ε')
    (h : ∀ i s, step' i (f s) = ((step i s).map f).mapError e) (start : σ) (k : Nat) (hk : k ≤ n) :
    tryAfterSteps step' (f start) k hk = ((tryAfterSteps step start k hk).map f).mapError e := by
  induction k with
  | zero => rfl
  | succ k ih =>
    rw [tryAfterSteps, tryAfterSteps, ih]
    cases tryAfterSteps step start k _ with
    | error r => rfl
    | ok s => exact h ⟨k, hk⟩ s

end

def Reduction.map {α β : Type} {m n : Nat} (f : α → β) (s : Reduction α m n) : Reduction β m n :=
  ⟨s.matrix.map f, s.pivots⟩

def Augmented.map {α β : Type} {n : Nat} (f : α → β) (s : Augmented α n) : Augmented β n :=
  ⟨s.left.map f, s.right.map f⟩

def Stall.map {α β : Type} (f : α → β) (s : Stall α) : Stall β := ⟨s.step, f s.pivot⟩

theorem Vec.map_set {α β : Type} {n : Nat} (f : α → β) (v : Vec α n) (i : Fin n) (a : α) :
    (v.map f).set i (f a) = (v.set i a).map f := by
  ext j
  simp only [set_apply, map_apply, apply_ite f]

theorem Mat.map_swapRows {α β : Type} {m n : Nat} (f : α → β) (A : Mat α m n) (i r : Fin m) :
    (A.map f).swapRows i r = (A.swapRows i r).map f := by
  ext p j
  simp only [swapRows_apply, map_apply, apply_ite f]

section

variable {F K : Type} [Field F] [Field K] {m n : Nat} (φ : F →+* K)

namespace Mat

theorem clearWith_map (A : Mat F m n) (i r : Fin m) (d : F) (factor : Fin m → F) :
    (A.map φ).clearWith i r (φ d) (fun p => φ (factor p)) = (A.clearWith i r d factor).map φ := by
  ext p j
  simp only [clearWith, map_swapRows, eliminate_apply, divRow_apply, map_apply, apply_ite φ,
    map_sub, map_mul, map_div₀]

variable [LinearOrder F] [LinearOrder K]

theorem shift_map (A : Mat F n n) (x : F) : (A.map φ).shift (φ x) = (A.shift x).map φ := by
  ext i j
  simp only [shift_apply, map_apply, apply_ite φ, map_sub]

theorem pivotOn_map (A : Mat F m n) (k r : Fin m) (c : Fin n) :
    (A.map φ).pivotOn k r c = (A.pivotOn k r c).map φ := by
  ext i j
  simp only [pivotOn_apply, map_swapRows, map_apply, apply_ite φ, map_sub, map_mul, map_div₀]

theorem freeSolution_map (R : Mat F m n) (leads : List (Fin n)) (j : Fin n) :
    (R.map φ).freeSolution leads j = (R.freeSolution leads j).map φ := by
  have hstart : (Vec.replicate n (0 : K)).set j 1 = ((Vec.replicate n (0 : F)).set j 1).map φ := by
    rw [← Vec.map_set, map_one]
    congr 1
    ext i
    simp
  rw [freeSolution, freeSolution, hstart]
  apply List.foldl_hom
  intro v p
  rw [map_apply, ← Vec.map_set, map_neg]

end Mat

end

variable {F K : Type} [Field F] [LinearOrder F] [IsStrictOrderedRing F] [Field K] [LinearOrder K]
  [IsStrictOrderedRing K] {φ : F →+* K} (hφ : StrictMono φ) {m n : Nat}

include hφ

theorem abs_embedding (x : F) : Scalar.abs (φ x) = φ (Scalar.abs x) := by
  change |φ x| = φ |x|
  rw [abs_eq_max_neg, abs_eq_max_neg, hφ.monotone.map_max, map_neg]

theorem significant_embedding (x : F) : Significant (φ x) ↔ Significant x := by
  have h : (1 / 10 ^ 10 : K) = φ (1 / 10 ^ 10) := by simp [map_ofNat]
  change (1 / 10 ^ 10 : K) < Scalar.abs (φ x) ↔ (1 / 10 ^ 10 : F) < Scalar.abs x
  rw [abs_embedding hφ, h, hφ.lt_iff_lt]

theorem negligible_embedding (x : F) : Negligible (φ x) ↔ Negligible x := by
  have h : (1 / 10 ^ 10 : K) = φ (1 / 10 ^ 10) := by simp [map_ofNat]
  change Scalar.abs (φ x) < (1 / 10 ^ 10 : K) ↔ Scalar.abs x < (1 / 10 ^ 10 : F)
  rw [abs_embedding hφ, h, hφ.lt_iff_lt]

namespace Mat

theorem pivotRow?_map (A : Mat F m n) (cursor : Nat) (c : Fin n) :
    (A.map φ).pivotRow? cursor c = A.pivotRow? cursor c := by
  simp only [pivotRow?, map_apply, significant_embedding hφ]

theorem reduceColumn_map (c : Fin n) (s : Reduction F m n) :
    reduceColumn c (s.map φ) = (reduceColumn c s).map φ := by
  by_cases h : s.cursor < m
  · have h' : (s.map φ).cursor < m := h
    simp only [reduceColumn, dif_pos h, dif_pos h']
    have hpivot : (s.map φ).matrix.pivotRow? (s.map φ).cursor c = s.matrix.pivotRow? s.cursor c :=
      pivotRow?_map hφ _ _ _
    rw [hpivot]
    cases s.matrix.pivotRow? s.cursor c with
    | none => rfl
    | some r => exact congrArg (Reduction.mk · _) (pivotOn_map φ _ _ _ _)
  · have h' : ¬(s.map φ).cursor < m := h
    simp only [reduceColumn, dif_neg h, dif_neg h']

theorem reductionUpTo_map (A : Mat F m n) (k : Nat) (h : k ≤ n) :
    (A.map φ).reductionUpTo k h = (A.reductionUpTo k h).map φ := by
  induction k with
  | zero => rfl
  | succ k ih =>
    have hstep (B : Mat F m n) : B.reductionUpTo (k + 1) h =
        reduceColumn ⟨k, h⟩ (B.reductionUpTo k (Nat.le_of_succ_le h)) := rfl
    have hstep' (B : Mat K m n) : B.reductionUpTo (k + 1) h =
        reduceColumn ⟨k, h⟩ (B.reductionUpTo k (Nat.le_of_succ_le h)) := rfl
    rw [hstep, hstep', ih, reduceColumn_map hφ]

theorem rref_map (A : Mat F m n) : (A.map φ).rref = A.rref.map φ :=
  congrArg Reduction.matrix (reductionUpTo_map hφ A n le_rfl)

theorem skipsOnlyZeros_map (A : Mat F m n) : (A.map φ).SkipsOnlyZeros ↔ A.SkipsOnlyZeros := by
  simp only [SkipsOnlyZeros, reductionUpTo_map hφ, Reduction.map, Reduction.cursor, map_apply,
    significant_embedding hφ, map_eq_zero]

theorem pivotColumns_map (A : Mat F m n) : (A.map φ).pivotColumns = A.pivotColumns := by
  have hlead : (A.rref.map φ).leadingColumn? = A.rref.leadingColumn? := by
    funext i
    simp only [leadingColumn?, map_apply, significant_embedding hφ]
  rw [pivotColumns, pivotColumns, rref_map hφ, leadingColumns, leadingColumns, hlead]

theorem freeSolutions_map (A : Mat F m n) :
    (A.map φ).freeSolutions = A.freeSolutions.map (·.map φ) := by
  simp only [freeSolutions, freeColumns, pivotColumns_map hφ, rref_map hφ, List.map_map]
  exact List.map_congr_left fun j _ => freeSolution_map φ _ _ j

theorem largestRow_map (A : Mat F m n) (start : Fin m) (c : Fin n) :
    (A.map φ).largestRow start c = A.largestRow start c := by
  simp only [largestRow, map_apply, abs_embedding hφ, hφ.lt_iff_lt]

theorem inversionStep_map (i : Fin n) (s : Augmented F n) :
    inversionStep i (s.map φ) =
      ((inversionStep i s).map (·.map φ)).mapError (·.map φ) := by
  have hrow : (s.map φ).left.largestRow i i = s.left.largestRow i i := largestRow_map hφ _ _ _
  have hpivot (p : Fin n) : (s.map φ).left p i = φ (s.left p i) := map_apply _ _ _ _
  rw [inversionStep_eq hrow, inversionStep_eq rfl, hpivot]
  by_cases hn : Negligible (s.left (s.left.largestRow i i) i)
  · rw [if_pos hn, if_pos ((negligible_embedding hφ _).mpr hn)]
    rfl
  · rw [if_neg hn, if_neg (mt (negligible_embedding hφ _).mp hn)]
    have hfactor : (((s.map φ).left.swapRows i (s.left.largestRow i i)).entry · i) =
        fun p => φ ((s.left.swapRows i (s.left.largestRow i i)) p i) := by
      funext p
      exact (congrArg (Mat.entry · p i) (map_swapRows φ _ _ _)).trans (map_apply _ _ _ _)
    rw [hfactor]
    exact congrArg₂ (fun l r => Except.ok (Augmented.mk l r)) (clearWith_map φ _ _ _ _ _)
      (clearWith_map φ _ _ _ _ _)

theorem inverse_map (A : Mat F n n) : (A.map φ).inverse = A.inverse.map (·.map φ) := by
  have hstart : (⟨A.map φ, identity n⟩ : Augmented K n) = Augmented.map φ ⟨A, identity n⟩ := by
    refine congrArg (Augmented.mk _) ?_
    ext i j
    simp
  have hrun : (A.map φ).inversionUpTo n le_rfl =
      ((A.inversionUpTo n le_rfl).map (·.map φ)).mapError (·.map φ) := by
    rw [inversionUpTo, hstart]
    exact tryAfterSteps_image _ _ (inversionStep_map hφ) _ n le_rfl
  rw [inverse, inverse, hrun]
  cases A.inversionUpTo n le_rfl <;> rfl

end Mat

end DenseLinear
