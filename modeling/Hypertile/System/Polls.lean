import Hypertile.System.Steps

/-!
# Polls under way

Between the poll of a handle and its return the awaiter is inside its own poll: `PollsOk` says so of
every poll of a handle under way. A task that is being polled is not suspended (`not_suspended`), so
what a task has found pending changes only while it is not.
-/

namespace Hypertile

open Machine Machine.Threads

variable {κ ε ι F T P : Type} [DecidableEq κ] [DecidableEq ε] [DecidableEq ι]

section
variable {W : Type} [Fintype ι] {fut : F} {c : TaskConfig ι F T P W}

/-- A task that is being polled is not suspended: one call holds its handle. -/
theorem not_suspended (h : (taskMachine fut).Reachable ownHandles c) {j : ι}
    (hj : (c.loc j).polling = true) : ¬ Suspended c := by
  have hhandle : (c.loc j).holdsHandle = true := by
    generalize c.loc j = pc at hj
    unfold Pc.polling at hj
    split at hj
    · rfl
    · cases hj
  rintro (hs | ⟨i, hi⟩)
  · have hle := (le_total Shared.handleTokens Pc.handleTokens c j).trans (reachable_handled h)
    rw [Shared.handleTokens, Pc.handleTokens, hs, hhandle] at hle
    simp [TaskState.idleToken] at hle
  · have hheld : (c.loc i).holdsHandle = true := by
      generalize c.loc i = pc at hi
      unfold Pc.suspends at hi
      split at hi
      case h_4 => cases hi
      all_goals rfl
    have hij := holdsHandle_unique h hheld hhandle
    subst hij
    generalize c.loc i = pc at hi hj
    unfold Pc.polling at hj
    split at hj
    · cases hi
    · cases hj

end

/-! ## Polls of a handle under way -/

/-- The polls of handles under way are those that `polls` records, each inside a poll of the task
that awaits, or in `block_on`. -/
structure PollsOk (aw : Awaits κ) (s : TaskSystem κ ε ι F T P) : Prop where
  recorded : ∀ k i, ((s.cell k).loc i).inJoin = true →
    ∃ w, aw.parent k = some w ∧ s.polls w = some k
  underWay : ∀ w k, s.polls w = some k →
    aw.parent k = some w ∧ ∃ i, ((s.cell k).loc i).inJoin = true
  inPoll : ∀ p k, s.polls (.task p) = some k → ∃ j, ((s.cell p).loc j).polling = true
  inBlock : s.polls .blocked ≠ none ↔ s.block = .polling

variable {aw : Awaits κ} {fut : κ → F} {s s' : TaskSystem κ ε ι F T P} {k : κ} {i : ι}
  {σ : Shared ι F T P (Awaiter κ)} {pc : Pc F T P (Awaiter κ)}
  {G : TaskSystem κ ε ι F T P → SystemAct κ ε ι F T P → Prop}

namespace TaskSystem

omit [DecidableEq ε] in
/-- What holds of the calls of all tasks, after one has moved: of the call that moved and of the
others. -/
theorem forall_call {p : κ → Pc F T P (Awaiter κ) → Prop} (hself : p k pc)
    (hother : ∀ k' j, p k' ((s.cell k').loc j)) (k' : κ) (j : ι) :
    p k' (((s.withCall k i σ pc).cell k').loc j) := by
  by_cases hk : k' = k
  · subst hk
    rw [withCall_self]
    by_cases hj : j = i
    · subst hj
      simpa using hself
    · simpa [hj] using hother k' j
  · rw [withCall_of_ne hk]
    exact hother k' j

omit [DecidableEq ε] in
/-- A call with a property that has not moved to lose it is still one. -/
theorem exists_call {q : Pc F T P (Awaiter κ) → Bool} {k' : κ}
    (h : ∃ j, q ((s.cell k').loc j) = true)
    (hkeep : k' = k → q ((s.cell k).loc i) = true → q pc = true) :
    ∃ j, q (((s.withCall k i σ pc).cell k').loc j) = true := by
  obtain ⟨j, hj⟩ := h
  refine ⟨j, ?_⟩
  by_cases hk : k' = k
  · subst hk
    rw [withCall_self]
    by_cases hji : j = i
    · subst hji
      simpa using hkeep rfl hj
    · simpa [hji] using hj
  · rwa [withCall_of_ne hk]

end TaskSystem

omit [DecidableEq ε] in
/-- A step of a call that begins and ends no poll of a handle, and ends a poll of the future only
where none is under way in it. -/
theorem PollsOk.keep (h : PollsOk aw s)
    (hjoin : ((s.cell k).loc i).inJoin = true → pc.inJoin = true)
    (hnew : pc.inJoin = true → ((s.cell k).loc i).inJoin = true)
    (hpoll : ((s.cell k).loc i).polling = true → pc.polling = true ∨ s.polls (.task k) = none)
    (hcell : s'.cell = (s.withCall k i σ pc).cell) (hpolls : s'.polls = s.polls)
    (hblock : s'.block = s.block) : PollsOk aw s' where
  recorded := by
    rw [hcell, hpolls]
    exact TaskSystem.forall_call (p := fun k pc => pc.inJoin = true →
      ∃ w, aw.parent k = some w ∧ s.polls w = some k) (fun hpc => h.recorded k i (hnew hpc))
      h.recorded
  underWay := by
    rw [hcell, hpolls]
    intro w k' hk'
    obtain ⟨hw, hj⟩ := h.underWay w k' hk'
    exact ⟨hw, TaskSystem.exists_call hj fun _ => hjoin⟩
  inPoll := by
    rw [hcell, hpolls]
    intro p k' hk'
    refine TaskSystem.exists_call (h.inPoll p k' hk') fun hp hpc => ?_
    subst hp
    rcases hpoll hpc with hpc | hnone
    · exact hpc
    · rw [hnone] at hk'
      cases hk'
  inBlock := by
    rw [hpolls, hblock]
    exact h.inBlock

omit [DecidableEq ε] in
/-- The awaiter of a task begins a poll of its handle. -/
theorem PollsOk.begins {w : Awaiter κ} (h : PollsOk aw s) (hw : aw.parent k = some w)
    (hn : s.polls w = none) (hi : (s.cell k).loc i = .idle) (hpc : pc.inJoin = true)
    (hpoll : ∀ p, w = .task p → ∃ j, ((s.cell p).loc j).polling = true)
    (hcell : s'.cell = (s.withCall k i σ pc).cell)
    (hpolls : s'.polls = Function.update s.polls w (some k))
    (hblock : s'.polls .blocked ≠ none ↔ s'.block = .polling) : PollsOk aw s' where
  recorded := by
    have old : ∀ w' k', s.polls w' = some k' → s'.polls w' = some k' := by
      intro w' k' hk'
      have hne : w' ≠ w := by
        rintro rfl
        rw [hn] at hk'
        cases hk'
      rwa [hpolls, Function.update_of_ne hne]
    rw [hcell]
    refine TaskSystem.forall_call (p := fun k pc => pc.inJoin = true →
      ∃ w', aw.parent k = some w' ∧ s'.polls w' = some k) (fun _ => ⟨w, hw, by simp [hpolls]⟩) ?_
    intro k' j hj
    obtain ⟨w', hw', hk'⟩ := h.recorded k' j hj
    exact ⟨w', hw', old w' k' hk'⟩
  underWay := by
    intro w' k' hk'
    rw [hcell]
    by_cases hne : w' = w
    · subst hne
      rw [hpolls, Function.update_self] at hk'
      cases hk'
      exact ⟨hw, i, by simpa using hpc⟩
    · rw [hpolls, Function.update_of_ne hne] at hk'
      obtain ⟨hw', hj⟩ := h.underWay w' k' hk'
      exact ⟨hw', TaskSystem.exists_call hj fun _ _ => hpc⟩
  inPoll := by
    intro p k' hk'
    rw [hcell]
    refine TaskSystem.exists_call ?_ fun _ hpoll => ?_
    · by_cases hne : Awaiter.task p = w
      · exact hpoll p hne.symm
      · rw [hpolls, Function.update_of_ne hne] at hk'
        exact h.inPoll p k' hk'
    · rw [hi] at hpoll
      cases hpoll
  inBlock := hblock

omit [DecidableEq ε] in
/-- The poll of a handle returns to the awaiter. -/
theorem PollsOk.returns {w : Awaiter κ} (h : PollsOk aw s) (hw : aw.parent k = some w)
    (hi : ((s.cell k).loc i).inJoin = true)
    (hone : ∀ j, ((s.cell k).loc j).inJoin = true → j = i)
    (hcell : s'.cell = (s.withCall k i σ .idle).cell)
    (hpolls : s'.polls = Function.update s.polls w none)
    (hblock : s'.polls .blocked ≠ none ↔ s'.block = .polling) : PollsOk aw s' where
  recorded := by
    intro k' j
    rw [hcell]
    by_cases hk : k' = k
    · subst hk
      rw [TaskSystem.withCall_self]
      by_cases hji : j = i
      · subst hji
        simp [Pc.inJoin]
      · intro hj
        simp only [Function.update_of_ne hji] at hj
        exact absurd (hone j hj) hji
    · rw [TaskSystem.withCall_of_ne hk]
      intro hj
      obtain ⟨w', hw', hk'⟩ := h.recorded k' j hj
      have hne : w' ≠ w := by
        rintro rfl
        obtain ⟨w₁, hw₁, hk₁⟩ := h.recorded k i hi
        rw [hw] at hw₁
        cases hw₁
        rw [hk'] at hk₁
        exact hk (Option.some.inj hk₁)
      exact ⟨w', hw', by rwa [hpolls, Function.update_of_ne hne]⟩
  underWay := by
    intro w' k' hk'
    by_cases hne : w' = w
    · rw [hne, hpolls, Function.update_self] at hk'
      cases hk'
    · rw [hpolls, Function.update_of_ne hne] at hk'
      obtain ⟨hw', hj⟩ := h.underWay w' k' hk'
      have hk : k' ≠ k := by
        rintro rfl
        rw [hw] at hw'
        exact hne (Option.some.inj hw').symm
      rw [hcell, TaskSystem.withCall_of_ne hk]
      exact ⟨hw', hj⟩
  inPoll := by
    intro p k' hk'
    rw [hcell]
    have hk₁ : s.polls (.task p) = some k' := by
      by_cases hne : Awaiter.task p = w
      · rw [hne, hpolls, Function.update_self] at hk'
        cases hk'
      · rwa [hpolls, Function.update_of_ne hne] at hk'
    refine TaskSystem.exists_call (h.inPoll p k' hk₁) fun _ hpoll => ?_
    generalize (s.cell k).loc i = old at hi hpoll
    cases old with
    | join => cases hpoll
    | _ => cases hi
  inBlock := hblock

/-- `PollsOk` in every state reached. -/
theorem reachable_pollsOk (h : (systemMachine aw fut).Reachable G s) : PollsOk aw s := by
  refine system_invariant (J := CellsReached aw fut) h (fun _ h => reachable_cell h)
    ⟨nofun, nofun, nofun, ?_⟩ ?_
  · simp [TaskSystem.new]
  intro s s' hcells _ hI hst
  cases hst with
  | spawn | pollEvent | fire | wakeBlocked =>
    exact ⟨hI.recorded, hI.underWay, hI.inPoll, hI.inBlock⟩
  | unpark hblock ht =>
    refine ⟨hI.recorded, hI.underWay, hI.inPoll, ?_⟩
    have hb := hI.inBlock
    rw [hblock] at hb
    simpa using hb
  | @call k i a σ pc hk ha hend hst =>
    have ht := callStep_trans hst
    have hnew : pc.inJoin = true → ((s.cell k).loc i).inJoin = true := ht.inJoin ha
    have hends : ((s.cell k).loc i).polling = true → s.polls (.task k) = none := by
      intro hpoll
      obtain ⟨fut, r, rfl⟩ := ht.polling hpoll
      have hend := hend fut r rfl
      unfold TaskSystem.mayEnd at hend
      split at hend
      · simp only [Bool.and_eq_true] at hend
        exact Option.isNone_iff_eq_none.1 hend.1
      · exact Option.isNone_iff_eq_none.1 hend
    have hne : a ≠ .unwind := by
      rintro rfl
      cases ha
    have hnoted := ht.noted hne
    cases hnoted with
    | quiet hquiet _ _ _ hjoin _ =>
      rw [TaskSystem.moved_quiet hquiet]
      exact hI.keep hjoin hnew (fun h => .inr (hends h)) rfl rfl rfl
    | began hpc hpc' hlog =>
      rw [TaskSystem.moved_began hlog]
      refine hI.keep ?_ hnew (fun h => .inr (hends h)) rfl rfl rfl
      rw [hpc]
      exact nofun
    | woken hpc hpc' hw hlog =>
      rw [TaskSystem.moved_woken hlog]
      refine hI.keep ?_ hnew (fun h => .inr (hends h)) rfl rfl rfl
      rw [hpc]
      exact nofun
    | @returned r hpc hpc' hlog =>
      have hin : ((s.cell k).loc i).inJoin = true := by
        rw [hpc]
        rfl
      obtain ⟨w, hw, hpolls⟩ := hI.recorded k i hin
      rw [TaskSystem.moved_returned hw hlog]
      subst hpc'
      refine hI.returns hw hin (fun j hj => (reachable_joinBorrowed (hcells k)).1.unique hj hin) rfl
        rfl ?_
      cases w with
      | task p => simpa [TaskSystem.joinReturned] using hI.inBlock
      | blocked => cases r <;> simp [TaskSystem.joinReturned]
  | pollJoin hp hn hj hk hi hb =>
    refine hI.begins hp hn hi rfl ?_ rfl rfl ?_
    · rintro p hp
      cases hp
      exact ⟨_, hj⟩
    · simpa using hI.inBlock
  | @wakeTask k i ho hk hi =>
    have hcell : ((s.paid (.task k)).withCall k i (s.cell k).shared (.wake .load)).cell =
      (s.withCall k i (s.cell k).shared (.wake .load)).cell := rfl
    refine hI.keep ?_ (fun h => by cases h) ?_ hcell rfl rfl <;> rw [hi] <;> exact nofun
  | blockPoll hblock hk hi hb =>
    have hn : s.polls .blocked = none := by
      by_contra hne
      have hb := hI.inBlock.1 hne
      rw [hblock] at hb
      cases hb
    exact hI.begins aw.parent_root hn hi rfl nofun rfl rfl (by simp)

end Hypertile
