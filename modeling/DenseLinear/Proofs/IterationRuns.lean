import DenseLinear.Proofs.Similarity

/-!
# Runs of the iteration

The iterates depend on the matrix alone. The tolerance says at which of them a run settles, and the
budget how far it goes at most. So a run that settles, or meets an iterate without orthogonal
factors, ends in the same way under any larger budget, and a higher tolerance settles it no later.
Nothing is asked of the scalars here but that their order is transitive, and that only to compare
two tolerances.
-/

namespace DenseLinear

namespace Mat

variable {α : Type} [RootScalar α] {n : Nat} {A B C : Mat α n n} {tolerance : α} {k budget : Nat}

/-- Step `k` of the iteration changes no diagonal entry by the tolerance or more. -/
def SettlesAt (A : Mat α n n) (tolerance : α) (k : Nat) : Prop :=
  ∃ j B C, k = j + 1 ∧ A.iterate j = .ok B ∧ A.iterate k = .ok C ∧ DiagonalSettled tolerance B C

theorem settlesAt_succ_iff : A.SettlesAt tolerance (k + 1) ↔
    ∃ B C, A.iterate k = .ok B ∧ A.iterate (k + 1) = .ok C ∧ DiagonalSettled tolerance B C := by
  constructor
  · rintro ⟨j, B, C, hj, hB, hC, h⟩
    obtain rfl : k = j := Nat.succ.inj hj
    exact ⟨B, C, hB, hC, h⟩
  · rintro ⟨B, C, hB, hC, h⟩
    exact ⟨k, B, C, rfl, hB, hC, h⟩

theorem SettlesAt.pos (h : A.SettlesAt tolerance k) : 1 ≤ k := by
  obtain ⟨j, _, _, rfl, _⟩ := h
  exact Nat.le_add_left 1 j

theorem SettlesAt.exists_iterate (h : A.SettlesAt tolerance k) : ∃ B, A.iterate k = .ok B := by
  obtain ⟨_, _, C, _, _, hC, _⟩ := h
  exact ⟨C, hC⟩

theorem settlesAt_one_iff (hAB : A.swapFactors = .ok B) :
    A.SettlesAt tolerance 1 ↔ DiagonalSettled tolerance A B := by
  rw [settlesAt_succ_iff, iterate_succ_of_swapFactors hAB]
  simp [iterate]

/-- The steps after the first are those of the matrix that it leads to. -/
theorem settlesAt_add_two_iff (hAB : A.swapFactors = .ok B) :
    A.SettlesAt tolerance (k + 2) ↔ B.SettlesAt tolerance (k + 1) := by
  rw [settlesAt_succ_iff, settlesAt_succ_iff, iterate_succ_of_swapFactors hAB,
    iterate_succ_of_swapFactors hAB]

theorem iterate_of_error {c : Fin n} (h : A.iterate k = .error c) {l : Nat} (hkl : k ≤ l) :
    A.iterate l = .error c := by
  induction hkl with
  | refl => exact h
  | step _ ih =>
    rw [iterate, ih]
    rfl

theorem SettlesAt.lt_of_error (h : A.SettlesAt tolerance k) {l : Nat} {c : Fin n}
    (hc : A.iterate l = .error c) : k < l := by
  by_contra hle
  obtain ⟨B, hB⟩ := h.exists_iterate
  rw [iterate_of_error hc (not_lt.mp hle)] at hB
  cases hB

theorem iterateFactors_of_unsettled (h : ∀ k ≤ budget, ¬A.SettlesAt tolerance k) (done : Nat) :
    A.iterateFactors tolerance budget done = (A.iterate budget).map .exhausted := by
  induction budget generalizing A done with
  | zero => rfl
  | succ budget ih =>
    cases hA : A.swapFactors with
    | error c =>
      have hfail : A.iterate (budget + 1) = .error c := iterate_of_error (k := 1) hA (by omega)
      simp only [iterateFactors, hA, hfail, Except.map]
    | ok B =>
      have hmove : ¬DiagonalSettled tolerance A B := fun hs =>
        h 1 (by omega) ((settlesAt_one_iff hA).mpr hs)
      simp only [iterateFactors, hA, if_neg hmove]
      rw [ih, iterate_succ_of_swapFactors hA]
      intro k hk hB
      cases k with
      | zero => exact absurd hB.pos (by omega)
      | succ k => exact h (k + 2) (by omega) ((settlesAt_add_two_iff hA).mpr hB)

theorem iterateFactors_of_settlesAt (hk : IsLeast {k | A.SettlesAt tolerance k} k)
    (hB : A.iterate k = .ok B) (hle : k ≤ budget) (done : Nat) :
    A.iterateFactors tolerance budget done = .ok (.settled (done + k) B) := by
  induction budget generalizing A k done with
  | zero => exact absurd hk.1.pos (by omega)
  | succ budget ih =>
    cases hA : A.swapFactors with
    | error c => exact absurd (hk.1.lt_of_error (l := 1) hA) hk.1.pos.not_gt
    | ok C =>
      simp only [iterateFactors, hA]
      split_ifs with hs
      · obtain rfl : k = 1 := le_antisymm (hk.2 ((settlesAt_one_iff hA).mpr hs)) hk.1.pos
        rw [iterate_succ_of_swapFactors hA] at hB
        cases hB
        rfl
      · obtain _ | _ | k := k
        · exact absurd hk.1.pos (by omega)
        · exact absurd ((settlesAt_one_iff hA).mp hk.1) hs
        · rw [iterate_succ_of_swapFactors hA] at hB
          have hleast : IsLeast {k | C.SettlesAt tolerance k} (k + 1) := by
            refine ⟨(settlesAt_add_two_iff hA).mp hk.1, ?_⟩
            intro j hj
            cases j with
            | zero => exact absurd hj.pos (by omega)
            | succ j => exact Nat.le_of_succ_le_succ (hk.2 ((settlesAt_add_two_iff hA).mpr hj))
          rw [ih hleast hB (by omega)]
          congr 2
          omega

theorem eigenvalues_of_settlesAt (hk : IsLeast {k | A.SettlesAt tolerance k} k)
    (hB : A.iterate k = .ok B) (hle : k ≤ budget) :
    A.eigenvalues ⟨budget, tolerance⟩ = ⟨[.settled k], .ok (.ofFn fun i => B i i)⟩ := by
  simp only [eigenvalues, iterateFactors_of_settlesAt hk hB hle, Nat.zero_add]
  rfl

theorem eigenvalues_of_exhausted (h : ∀ k ≤ budget, ¬A.SettlesAt tolerance k)
    (hB : A.iterate budget = .ok B) :
    A.eigenvalues ⟨budget, tolerance⟩ = ⟨[.exhausted budget], .ok (.ofFn fun i => B i i)⟩ := by
  simp only [eigenvalues, iterateFactors_of_unsettled h, hB]
  rfl

theorem eigenvalues_of_error (h : ∀ k ≤ budget, ¬A.SettlesAt tolerance k) {c : Fin n}
    (hc : A.iterate budget = .error c) :
    A.eigenvalues ⟨budget, tolerance⟩ = ⟨[], .error (.rankDeficient c)⟩ := by
  simp only [eigenvalues, iterateFactors_of_unsettled h, hc]
  rfl

/-- After an iterate without orthogonal factors no step settles. -/
theorem not_settlesAt_of_error (h : ∀ k ≤ budget, ¬A.SettlesAt tolerance k) {c : Fin n}
    (hc : A.iterate budget = .error c) (k : Nat) : ¬A.SettlesAt tolerance k :=
  fun hk => h k (hk.lt_of_error hc).le hk

/-- A matrix without orthogonal factors is refused in the first step. -/
theorem eigenvalues_of_qr_error {c : Fin n} (h : A.qr = .error c) {options : IterationOptions α}
    (hsteps : 1 ≤ options.maxSteps) :
    A.eigenvalues options = ⟨[], .error (.rankDeficient c)⟩ := by
  have hfail : A.iterate 1 = .error c := by
    change A.swapFactors = .error c
    rw [swapFactors, h]
    rfl
  refine eigenvalues_of_error ?_ (iterate_of_error hfail hsteps)
  intro k _ hk
  exact absurd (hk.lt_of_error hfail) hk.pos.not_gt

/-- A step that settles is not before the first one that does. -/
theorem SettlesAt.exists_isLeast (h : A.SettlesAt tolerance k) :
    ∃ j B, j ≤ k ∧ IsLeast {i | A.SettlesAt tolerance i} j ∧ A.iterate j = .ok B := by
  classical
  have hex : ∃ i, A.SettlesAt tolerance i := ⟨k, h⟩
  have hfind := Nat.find_spec hex
  obtain ⟨B, hB⟩ := hfind.exists_iterate
  exact ⟨Nat.find hex, B, Nat.find_min' hex h, ⟨hfind, fun i hi => Nat.find_min' hex hi⟩, hB⟩

/-- A run settles at the first step that does, is refused, or is exhausted. In the first two cases
the budget may as well be larger. -/
theorem eigenvalues_cases (A : Mat α n n) (tolerance : α) (budget : Nat) :
    (∃ k B, k ≤ budget ∧ IsLeast {i | A.SettlesAt tolerance i} k ∧ A.iterate k = .ok B ∧
      ∀ more, budget ≤ more →
        A.eigenvalues ⟨more, tolerance⟩ = ⟨[.settled k], .ok (.ofFn fun i => B i i)⟩) ∨
    (∃ c : Fin n, ∀ more, budget ≤ more →
      A.eigenvalues ⟨more, tolerance⟩ = ⟨[], .error (.rankDeficient c)⟩) ∨
    ∃ B, A.iterate budget = .ok B ∧
      A.eigenvalues ⟨budget, tolerance⟩ = ⟨[.exhausted budget], .ok (.ofFn fun i => B i i)⟩ := by
  by_cases h : ∃ k, k ≤ budget ∧ A.SettlesAt tolerance k
  · obtain ⟨k, hk, hsettles⟩ := h
    obtain ⟨j, B, hj, hleast, hB⟩ := hsettles.exists_isLeast
    have hle := hj.trans hk
    exact .inl ⟨j, B, hle, hleast, hB, fun more hmore =>
      eigenvalues_of_settlesAt hleast hB (hle.trans hmore)⟩
  · push Not at h
    cases hB : A.iterate budget with
    | error c =>
      have hnone := not_settlesAt_of_error h hB
      exact .inr (.inl ⟨c, fun more hmore =>
        eigenvalues_of_error (fun k _ => hnone k) (iterate_of_error hB hmore)⟩)
    | ok B => exact .inr (.inr ⟨B, rfl, eigenvalues_of_exhausted h hB⟩)

theorem SettlesAt.of_lt (htrans : ∀ x y z : α, x < y → y < z → x < z) {higher : α}
    (hlt : tolerance < higher) (h : A.SettlesAt tolerance k) : A.SettlesAt higher k := by
  obtain ⟨j, B, C, hk, hB, hC, hsettled⟩ := h
  exact ⟨j, B, C, hk, hB, hC, fun i => htrans _ _ _ (hsettled i) hlt⟩

/-- A run that settles does so no later under a higher tolerance. -/
theorem events_eigenvalues_of_lt (htrans : ∀ x y z : α, x < y → y < z → x < z) {higher : α}
    (hlt : tolerance < higher) (h : (A.eigenvalues ⟨budget, tolerance⟩).events = [.settled k]) :
    ∃ j ≤ k, (A.eigenvalues ⟨budget, higher⟩).events = [.settled j] := by
  rcases A.eigenvalues_cases tolerance budget with
    ⟨l, _, hl, hleast, _, hruns⟩ | ⟨_, hruns⟩ | ⟨_, _, hrun⟩
  · rw [hruns budget le_rfl] at h
    obtain rfl : l = k := by simpa using h
    obtain ⟨j, B, hj, hfirst, hB⟩ := (hleast.1.of_lt htrans hlt).exists_isLeast
    exact ⟨j, hj, by rw [eigenvalues_of_settlesAt hfirst hB (hj.trans hl)]⟩
  · rw [hruns budget le_rfl] at h
    cases h
  · rw [hrun] at h
    cases h

end Mat

namespace DenseMatrix

variable {α : Type} [RootScalar α]

theorem eigenvalues_of_toSquare {A : DenseMatrix α} {S : Mat α A.height A.height}
    (hS : A.toSquare = .ok S) {options : IterationOptions α} {events : List (Event α)}
    {result : Except Error (Vec α A.height)} (h : S.eigenvalues options = ⟨events, result⟩) :
    A.eigenvalues options = ⟨events, result.map (·.toArray)⟩ := by
  unfold eigenvalues
  rw [hS]
  cases result <;> simp [bind, h, Except.map]

/-- A run that reports that it settled, or that is refused, ends in the same way under any larger
budget. Any other run is exhausted, and its answer is the diagonal of the last iterate. A run that
settles reports the first step that does, and it does not settle later under a higher tolerance. -/
theorem eigenvalues_of_larger_budget (A : DenseMatrix α) (S : Mat α A.height A.height)
    (hS : A.toSquare = .ok S) (tolerance : α) (budget : Nat) :
    let run := A.eigenvalues ⟨budget, tolerance⟩
    let settled := ∃ event ∈ run.events, event.level = .debug
    let refused := ∃ c, run.result = .error (.rankDeficient c)
    (settled ∨ refused → ∀ more, budget ≤ more → A.eigenvalues ⟨more, tolerance⟩ = run) ∧
    (¬(settled ∨ refused) → ∃ B, S.iterate budget = .ok B ∧
      run = ⟨[.exhausted budget], .ok (A.ofSquare B).diagonal⟩) ∧
    (settled → ∃ k B, 1 ≤ k ∧ k ≤ budget ∧ IsLeast {i | S.SettlesAt tolerance i} k ∧
      S.iterate k = .ok B ∧ run = ⟨[.settled k], .ok (A.ofSquare B).diagonal⟩) ∧
    (∀ e, run.result = .error e → run.events = []) ∧
    ((∀ x y z : α, x < y → y < z → x < z) → ∀ higher, tolerance < higher →
      ∀ k, run.events = [.settled k] →
        ∃ j ≤ k, (A.eigenvalues ⟨budget, higher⟩).events = [.settled j]) := by
  intro run settled refused
  have hdiagonal (B : Mat α A.height A.height) :
      (A.ofSquare B).diagonal = (Vec.ofFn fun i => B i i).toArray := Mat.toArray_diagonal B
  simp only [hdiagonal]
  have hlater (htrans : ∀ x y z : α, x < y → y < z → x < z) (higher : α) (hlt : tolerance < higher)
      (k : Nat) (hk : run.events = [.settled k]) :
      ∃ j ≤ k, (A.eigenvalues ⟨budget, higher⟩).events = [.settled j] := by
    simp only [run, events_eigenvalues_of_toSquare hS] at hk ⊢
    exact Mat.events_eigenvalues_of_lt htrans hlt hk
  rcases S.eigenvalues_cases tolerance budget with
    ⟨k, B, hk, hleast, hB, hruns⟩ | ⟨c, hruns⟩ | ⟨B, hB, hlast⟩
  · have hrun : run = _ := eigenvalues_of_toSquare hS (hruns budget le_rfl)
    have hsettled : settled := ⟨.settled k, by rw [hrun]; exact List.mem_singleton_self _, rfl⟩
    refine ⟨?_, fun h => absurd (.inl hsettled) h,
      fun _ => ⟨k, B, hleast.1.pos, hk, hleast, hB, hrun⟩, ?_, hlater⟩
    · intro _ more hmore
      rw [hrun, eigenvalues_of_toSquare hS (hruns more hmore)]
    · intro e he
      rw [hrun] at he
      cases he
  · have hrun : run = _ := eigenvalues_of_toSquare hS (hruns budget le_rfl)
    have hrefused : refused := ⟨c, by rw [hrun]; rfl⟩
    refine ⟨?_, fun h => absurd (.inr hrefused) h, ?_, fun e _ => by rw [hrun], hlater⟩
    · intro _ more hmore
      rw [hrun, eigenvalues_of_toSquare hS (hruns more hmore)]
    · rintro ⟨event, hevent, _⟩
      rw [hrun] at hevent
      cases hevent
  · have hrun : run = _ := eigenvalues_of_toSquare hS hlast
    have hneither : ¬(settled ∨ refused) := by
      rintro (⟨event, hevent, hlevel⟩ | ⟨c, hc⟩)
      · rw [hrun, List.mem_singleton] at hevent
        rw [hevent] at hlevel
        cases hlevel
      · rw [hrun] at hc
        cases hc
    refine ⟨fun h => absurd h hneither, fun _ => ⟨B, hB, hrun⟩,
      fun h => absurd (.inl h) hneither, ?_, hlater⟩
    intro e he
    rw [hrun] at he
    cases he

/-- The diagonal moves by `4 / 5` in the first step and by less than `1 / 2` in the second. -/
def balanced : Mat Float 2 2 := .ofFn ![![2, 1], ![1, 2]]

theorem larger_budget_balanced_coupled :
    let A : DenseMatrix Float := ⟨2, 2, Nat.two_pos, Nat.two_pos, balanced⟩
    let C : DenseMatrix ℝ := ⟨2, 2, Nat.two_pos, Nat.two_pos, coupled⟩
    A.toSquare = .ok balanced ∧
    ((∃ event ∈ (A.eigenvalues ⟨2, 0.5⟩).events, event.level = .debug) ∧
      (∀ more, 2 ≤ more → A.eigenvalues ⟨more, 0.5⟩ = A.eigenvalues ⟨2, 0.5⟩) ∧
      ∃ k, 1 ≤ k ∧ k ≤ 2 ∧ IsLeast {i | balanced.SettlesAt 0.5 i} k) ∧
    (∃ B, balanced.iterate 1 = .ok B ∧
      A.eigenvalues ⟨1, 0.5⟩ = ⟨[.exhausted 1], .ok (A.ofSquare B).diagonal⟩) ∧
    (C.eigenvalues ⟨1, 40⟩).events = [.settled 1] ∧
      ∃ j ≤ 1, (C.eigenvalues ⟨1, 50⟩).events = [.settled j] := by
  intro A C
  have hA : A.toSquare = .ok balanced := toSquare_mk _ _ _
  have hC : C.toSquare = .ok coupled := toSquare_mk _ _ _
  obtain ⟨hmore, _, hfirst, _, _⟩ := eigenvalues_of_larger_budget A balanced hA 0.5 2
  obtain ⟨_, hlast, _, _, _⟩ := eigenvalues_of_larger_budget A balanced hA 0.5 1
  obtain ⟨_, _, _, _, hhigher⟩ := eigenvalues_of_larger_budget C coupled hC 40 1
  have hsettled : ∃ event ∈ (A.eigenvalues ⟨2, 0.5⟩).events, event.level = .debug := by
    decide +kernel
  have hneither : (¬∃ event ∈ (A.eigenvalues ⟨1, 0.5⟩).events, event.level = .debug) ∧
      (A.eigenvalues ⟨1, 0.5⟩).result.isOk := by decide +kernel
  obtain ⟨k, _, hpos, hle, hleast, _, _⟩ := hfirst hsettled
  have hmove : coupled.SettlesAt 40 1 := by
    rw [Mat.settlesAt_one_iff swapFactors_coupled]
    intro i
    change |_| < _
    fin_cases i <;> norm_num [coupled]
  obtain ⟨j, B, hj, hjleast, hB⟩ := hmove.exists_isLeast
  obtain rfl : j = 1 := le_antisymm hj hjleast.1.pos
  have hcoupled : (C.eigenvalues ⟨1, 40⟩).events = [.settled 1] := by
    rw [eigenvalues_of_toSquare hC (Mat.eigenvalues_of_settlesAt hjleast hB le_rfl)]
  refine ⟨hA, ⟨hsettled, hmore (.inl hsettled), k, hpos, hle, hleast⟩, hlast ?_, hcoupled,
    hhigher (fun _ _ _ => lt_trans) 50 (by norm_num) 1 hcoupled⟩
  rintro (hsettles | ⟨c, hc⟩)
  · exact hneither.1 hsettles
  · have hok := hneither.2
    rw [hc] at hok
    cases hok

end DenseMatrix

end DenseLinear
