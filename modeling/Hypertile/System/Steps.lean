import Hypertile.System.Cells

/-!
# The steps of a system of tasks

`SystemTrans` lists the steps of a system, one constructor for each kind of action, and
`step_trans` reads a step back as one of them. A step of a call is `TaskSystem.moved`, which
`moved_noted` takes apart by what the step adds to the log of its task. In every state reached the
cell of a task is one that the task machine reaches (`reachable_cell`).
-/

namespace Hypertile

open Machine

variable {κ ε ι F T P : Type} [DecidableEq κ] [DecidableEq ε] [DecidableEq ι]

/-- `SystemTrans aw s s'`: the system can go from `s` to `s'` in one step. -/
inductive SystemTrans (aw : Awaits κ) (s : TaskSystem κ ε ι F T P) : TaskSystem κ ε ι F T P → Prop
  | spawn {k : κ} (hk : s.spawned k = false) :
      SystemTrans aw s { s with spawned := Function.update s.spawned k true }
  | call {k : κ} {i : ι} {a : Label F T P (Awaiter κ)} {σ : Shared ι F T P (Awaiter κ)}
      {pc : Pc F T P (Awaiter κ)} (hk : s.spawned k = true) (ha : a.plain = true)
      (hend : ∀ fut r, a = .polled fut r → s.mayEnd k r = true)
      (hst : callStep i (s.cell k).shared ((s.cell k).loc i) a = some (σ, pc)) :
      SystemTrans aw s (s.moved aw k i σ pc)
  | pollJoin {p k : κ} {j i : ι} (hp : aw.parent k = some (.task p))
      (hn : s.polls (.task p) = none) (hj : ((s.cell p).loc j).polling = true)
      (hk : s.spawned k = true) (hi : (s.cell k).loc i = .idle)
      (hb : (s.cell k).shared.joinBorrowed = false) :
      SystemTrans aw s
        { s.withCall k i { (s.cell k).shared with joinBorrowed := true } (.join (.lock (.task p)))
          with polls := Function.update s.polls (.task p) (some k) }
  | pollEvent {p : κ} {j : ι} {e : ε} (hn : s.polls (.task p) = none)
      (hj : ((s.cell p).loc j).polling = true) : SystemTrans aw s (s.pollEvent p e)
  | fire {e : ε} (he : s.fired e = false) : SystemTrans aw s (s.fire e)
  | wakeTask {k : κ} {i : ι} (ho : 0 < s.owed (.task k)) (hk : s.spawned k = true)
      (hi : (s.cell k).loc i = .idle) :
      SystemTrans aw s
        ((s.paid (.task k)).withCall k i (s.cell k).shared (.wake .load))
  | wakeBlocked (ho : 0 < s.owed .blocked) :
      SystemTrans aw s { s.paid .blocked with token := true }
  | blockPoll {i : ι} (hblock : s.block = .poll) (hk : s.spawned aw.root = true)
      (hi : (s.cell aw.root).loc i = .idle) (hb : (s.cell aw.root).shared.joinBorrowed = false) :
      SystemTrans aw s
        { s.withCall aw.root i { (s.cell aw.root).shared with joinBorrowed := true }
            (.join (.lock .blocked))
          with polls := Function.update s.polls .blocked (some aw.root), block := .polling }
  | unpark (hblock : s.block = .park) (ht : s.token = true) :
      SystemTrans aw s { s with token := false, block := .poll }

namespace TaskSystem

variable {aw : Awaits κ} {s s' : TaskSystem κ ε ι F T P} {k : κ} {i : ι}

/-- A step of a call on a task that has been spawned. -/
theorem callOn_eq_some {a : Label F T P (Awaiter κ)} (h : s.callOn aw k i a = some s') :
    s.spawned k = true ∧ ∃ σ pc, callStep i (s.cell k).shared ((s.cell k).loc i) a = some (σ, pc) ∧
      s' = s.moved aw k i σ pc := by
  unfold callOn at h
  split at h
  · next hk =>
    obtain ⟨⟨σ, pc⟩, hst, rfl⟩ := Option.map_eq_some_iff.1 h
    exact ⟨hk, σ, pc, hst, rfl⟩
  · cases h

/-- A step that adds nothing to the log means nothing to the others. -/
theorem moved_same {σ : Shared ι F T P (Awaiter κ)} {pc : Pc F T P (Awaiter κ)}
    (h : σ.log = (s.cell k).shared.log) : s.moved aw k i σ pc = s.withCall k i σ pc := by
  simp [moved, newest_same h, observe]

/-- A poll of the handle begins. -/
theorem callOn_pollJoin {w : Awaiter κ} (h : s.callOn aw k i (.pollJoin w) = some s') :
    s.spawned k = true ∧ (s.cell k).loc i = .idle ∧ (s.cell k).shared.joinBorrowed = false ∧
      s' = s.withCall k i { (s.cell k).shared with joinBorrowed := true } (.join (.lock w)) := by
  obtain ⟨hk, σ, pc, hst, rfl⟩ := callOn_eq_some h
  have ht := callStep_trans hst
  generalize hi : (s.cell k).loc i = old at ht
  cases ht with
  | joinCall hb => exact ⟨hk, rfl, hb, moved_same rfl⟩

/-- A call of `wake_by_ref` begins. -/
theorem callOn_wake (h : s.callOn aw k i .wake = some s') :
    s.spawned k = true ∧ (s.cell k).loc i = .idle ∧
      s' = s.withCall k i (s.cell k).shared (.wake .load) := by
  obtain ⟨hk, σ, pc, hst, rfl⟩ := callOn_eq_some h
  have ht := callStep_trans hst
  generalize hi : (s.cell k).loc i = old at ht
  cases ht with
  | wakeCall => exact ⟨hk, rfl, moved_same rfl⟩

/-- Every step is one of those. -/
theorem step_trans {a : SystemAct κ ε ι F T P} (h : step aw s a = some s') :
    SystemTrans aw s s' := by
  unfold step at h
  split at h
  · split at h
    · cases h
    · next hk => cases h; exact .spawn (by simpa using hk)
  · next k i fut r =>
    split at h
    · next hend =>
      obtain ⟨hk, σ, pc, hst, rfl⟩ := callOn_eq_some h
      refine .call hk rfl (fun fut' r' heq => ?_) hst
      cases heq
      exact hend
    · cases h
  · next k i a hne =>
    split at h
    · next ha =>
      obtain ⟨hk, σ, pc, hst, rfl⟩ := callOn_eq_some h
      exact .call hk ha (fun fut r heq => absurd heq (hne fut r)) hst
    · cases h
  · split at h
    · next hp =>
      obtain ⟨hp, hn, hj⟩ := hp
      obtain ⟨s₁, hcall, rfl⟩ := Option.map_eq_some_iff.1 h
      obtain ⟨hk, hi, hb, rfl⟩ := callOn_pollJoin hcall
      exact .pollJoin hp hn hj hk hi hb
    · cases h
  · split at h
    · next hp => cases h; exact .pollEvent hp.1 hp.2
    · cases h
  · split at h
    · cases h
    · next he => cases h; exact .fire (by simpa using he)
  · split at h
    · next ho =>
      obtain ⟨hk, hi, rfl⟩ := callOn_wake h
      exact .wakeTask ho hk hi
    · cases h
  · split at h
    · next ho => cases h; exact .wakeBlocked ho
    · cases h
  · split at h
    · next hblock =>
      obtain ⟨s₁, hcall, rfl⟩ := Option.map_eq_some_iff.1 h
      obtain ⟨hk, hi, hb, rfl⟩ := callOn_pollJoin hcall
      exact .blockPoll hblock hk hi hb
    · next hblock =>
      split at h
      · next ht => cases h; exact .unpark hblock ht
      · cases h
    · cases h
    · cases h

/-! ## What a step of a call means to the others -/

section
variable {σ : Shared ι F T P (Awaiter κ)} {pc : Pc F T P (Awaiter κ)}

omit [DecidableEq ε] in
@[simp] theorem withCall_self : (s.withCall k i σ pc).cell k =
    ⟨σ, Function.update (s.cell k).loc i pc⟩ := by
  simp [withCall]

omit [DecidableEq ε] in
@[simp] theorem withCall_of_ne {k' : κ} (h : k' ≠ k) :
    (s.withCall k i σ pc).cell k' = s.cell k' := by
  simp [withCall, h]

section
omit [DecidableEq ε]

@[simp] theorem withCall_spawned : (s.withCall k i σ pc).spawned = s.spawned := rfl
@[simp] theorem withCall_fired : (s.withCall k i σ pc).fired = s.fired := rfl
@[simp] theorem withCall_registered : (s.withCall k i σ pc).registered = s.registered := rfl
@[simp] theorem withCall_owed : (s.withCall k i σ pc).owed = s.owed := rfl
@[simp] theorem withCall_pendingOn : (s.withCall k i σ pc).pendingOn = s.pendingOn := rfl
@[simp] theorem withCall_polls : (s.withCall k i σ pc).polls = s.polls := rfl
@[simp] theorem withCall_block : (s.withCall k i σ pc).block = s.block := rfl
@[simp] theorem withCall_token : (s.withCall k i σ pc).token = s.token := rfl

end

/-- An event that does not matter changes nothing. -/
theorem moved_quiet (h : ∀ e, newest (s.cell k).shared σ = some e → e.matters = false) :
    s.moved aw k i σ pc = s.withCall k i σ pc := by
  unfold moved
  cases hnew : newest (s.cell k).shared σ with
  | none => rfl
  | some e =>
    have he := h e hnew
    cases e with
    | pollBegan | joinWoken | joinReturned => cases he
    | _ => rfl

/-- A poll that begins has found nothing pending yet. -/
theorem moved_began (h : σ.log = .pollBegan i :: (s.cell k).shared.log) :
    s.moved aw k i σ pc =
      { s.withCall k i σ pc with pendingOn := Function.update s.pendingOn k [] } := by
  rw [moved, newest_cons h]
  rfl

/-- A waker that is woken is owed a wake. -/
theorem moved_woken {w : Awaiter κ} (h : σ.log = .joinWoken w :: (s.cell k).shared.log) :
    s.moved aw k i σ pc =
      { s.withCall k i σ pc with owed := Function.update s.owed w (s.owed w + 1) } := by
  rw [moved, newest_cons h]
  rfl

/-- A poll of the handle returns to the awaiter. -/
theorem moved_returned {w : Awaiter κ} {r : JoinPoll T P (Awaiter κ)} (hw : aw.parent k = some w)
    (h : σ.log = .joinReturned r :: (s.cell k).shared.log) :
    s.moved aw k i σ pc = (s.withCall k i σ pc).joinReturned k w r := by
  rw [moved, newest_cons h, observe, hw]

end

omit [DecidableEq ι] in
/-- The cells, after what an event means to the others. -/
@[simp] theorem observe_cell (e : Option (Event ι T P (Awaiter κ))) :
    (s.observe aw k e).cell = s.cell := by
  unfold observe
  split
  case h_3 => split <;> rfl
  all_goals rfl

omit [DecidableEq ι] in
/-- The tasks that are spawned stay. -/
@[simp] theorem observe_spawned (e : Option (Event ι T P (Awaiter κ))) :
    (s.observe aw k e).spawned = s.spawned := by
  unfold observe
  split
  case h_3 => split <;> rfl
  all_goals rfl

end TaskSystem

/-! ## The tasks of a system -/

variable {aw : Awaits κ} {fut : κ → F} {s s' : TaskSystem κ ε ι F T P}
  {G : TaskSystem κ ε ι F T P → SystemAct κ ε ι F T P → Prop}

/-- The rule for systems: what holds at the start and is kept by every step between states with
`J`, which all states reached have. -/
theorem system_invariant {I J : TaskSystem κ ε ι F T P → Prop}
    (h : (systemMachine aw fut).Reachable G s)
    (hJ : ∀ s, (systemMachine aw fut).Reachable G s → J s) (h₀ : I (.new fut))
    (hstep : ∀ s s', J s → J s' → I s → SystemTrans aw s s' → I s') : I s := by
  induction h with
  | refl => exact h₀
  | tail hr hG hst ih =>
    exact hstep _ _ (hJ _ hr) (hJ _ (.tail hr hG hst)) ih (TaskSystem.step_trans hst)

/-- Seen from its own cell, a task is a run of the task machine in which its handle is polled by its
awaiter alone. -/
def CellsReached (aw : Awaits κ) (fut : κ → F) (s : TaskSystem κ ε ι F T P) : Prop :=
  ∀ k, (taskMachine (fut k)).Reachable (awaitedBy (aw.parent k)) (s.cell k)

omit [DecidableEq ε] in
/-- A step of a call carries the run of its task on. -/
theorem CellsReached.step {k : κ} {i : ι} {a : Label F T P (Awaiter κ)}
    {σ : Shared ι F T P (Awaiter κ)} {pc : Pc F T P (Awaiter κ)} (h : CellsReached aw fut s)
    (hG : awaitedBy (aw.parent k) (s.cell k) (i, a))
    (hst : callStep i (s.cell k).shared ((s.cell k).loc i) a = some (σ, pc)) :
    CellsReached aw fut (s.withCall k i σ pc) := by
  intro k'
  by_cases hk : k' = k
  · subst hk
    rw [TaskSystem.withCall_self]
    exact .tail (h k') hG (Threads.step_iff.2 ⟨σ, pc, hst, rfl⟩)
  · rw [TaskSystem.withCall_of_ne hk]
    exact h k'

/-- `CellsReached` in every state reached. -/
theorem reachable_cell (h : (systemMachine aw fut).Reachable G s) : CellsReached aw fut s := by
  refine system_invariant (J := fun _ => True) h (fun _ _ => trivial) (fun _ => .refl) ?_
  intro s s' _ _ hI hst
  have hcall : ∀ {s₁ : TaskSystem κ ε ι F T P}, s₁.cell = s'.cell → CellsReached aw fut s₁ →
      CellsReached aw fut s' := fun heq h k => heq ▸ h k
  cases hst with
  | spawn | pollEvent | fire | wakeBlocked | unpark => exact hI
  | call hk ha hend hst =>
    exact hcall (TaskSystem.observe_cell _).symm (hI.step (.inl ha) hst)
  | pollJoin hp hn hj hk hi hb =>
    refine hcall rfl (hI.step (.inr ⟨_, hp, rfl⟩) ?_)
    rw [hi]
    simp [callStep, startCall, hb]
  | wakeTask ho hk hi =>
    refine hcall rfl (hI.step (a := .wake) (.inl rfl) ?_)
    rw [hi]
    rfl
  | blockPoll hblock hk hi hb =>
    refine hcall rfl (hI.step (.inr ⟨_, aw.parent_root, rfl⟩) ?_)
    rw [hi]
    simp [callStep, startCall, hb]

/-- A task that has not been spawned is as new. -/
theorem reachable_unspawned (h : (systemMachine aw fut).Reachable G s) (k : κ)
    (hk : s.spawned k = false) : s.cell k = ⟨.new (fut k), fun _ => .idle⟩ := by
  refine system_invariant (J := fun _ => True) (I := fun s => ∀ k, s.spawned k = false →
    s.cell k = ⟨.new (fut k), fun _ => .idle⟩) h (fun _ _ => trivial) (fun _ _ => rfl) ?_ k hk
  intro s s' _ _ hI hst k₁ hk₁
  have other : ∀ {k : κ} {i : ι} {σ : Shared ι F T P (Awaiter κ)} {pc : Pc F T P (Awaiter κ)},
      s.spawned k = true → s.spawned k₁ = false →
        (s.withCall k i σ pc).cell k₁ = ⟨.new (fut k₁), fun _ => .idle⟩ := by
    intro k i σ pc hk hk₁
    have hne : k₁ ≠ k := by
      rintro rfl
      rw [hk] at hk₁
      cases hk₁
    rw [TaskSystem.withCall_of_ne hne]
    exact hI k₁ hk₁
  cases hst with
  | @spawn k hk =>
    refine hI k₁ ?_
    by_cases hne : k₁ = k
    · simp [hne] at hk₁
    · simpa [hne] using hk₁
  | call hk =>
    simp only [TaskSystem.moved, TaskSystem.observe_spawned, TaskSystem.observe_cell] at hk₁ ⊢
    exact other hk hk₁
  | pollJoin hp hn hj hk hi hb => exact other hk hk₁
  | wakeTask ho hk hi => exact other hk hk₁
  | blockPoll hblock hk hi hb => exact other hk hk₁
  | pollEvent | fire | wakeBlocked | unpark => exact hI k₁ hk₁

end Hypertile
