import Hypertile.Machine.Ends
import Hypertile.System.Waits

/-!
# Where a system of tasks comes to rest

A system rests when nothing is left to do of its own: no handle is queued, no call can go on, no
woken waker still owes its call, and `block_on` is parked or has returned. Then every task has
completed or waits, and what it waits for is open: a task that has not completed or an event that
has not fired (`rests_on_open`). No wake is lost between a task and its awaiter, at whatever point
of whichever call it comes. So tasks that do not await each other in a circle all complete once the
events have fired, and `block_on` returns what the root came to (`completes_when_fired`).

What has to be shown of a system at rest is that no call is under way (`not_busy`): a call that
holds the lock of a result can go on, then so can one that waits for it, and a poll of a future can
end when no poll of a handle is under way inside it.
-/

namespace Hypertile

open Machine Machine.Threads

variable {κ ε ι F T P : Type}

/-- A step of the system's own: no task is spawned, no event fires, and no call is made but of `run`
on a queued handle and of `wake_by_ref` by a waker that was woken. -/
def SystemAct.own : SystemAct κ ε ι F T P → Bool
  | .call _ _ .runQueued | .call _ _ .go | .call _ _ (.polled _ _) | .wake _ _ | .block _ => true
  | _ => false

/-- The step is the system's own. -/
def ownAct (_ : TaskSystem κ ε ι F T P) (a : SystemAct κ ε ι F T P) : Prop := a.own = true

/-- What a task waits for has not come. -/
def TaskSystem.Open (s : TaskSystem κ ε ι F T P) : PendingSource κ ε → Prop
  | .task k => s.spawned k = true ∧ (s.cell k).shared.cell.state ≠ .completed
  | .event e => s.fired e = false

/-- The system rests on what is open: every task has completed or waits for what is open, and
`block_on`, if its task was spawned, has returned the outcome or is parked and the task has not
completed. -/
structure RestsOnOpen (aw : Awaits κ) (s : TaskSystem κ ε ι F T P) : Prop where
  task : ∀ k, s.spawned k = true → (s.cell k).shared.cell.state = .completed ∨
    s.pendingOn k ≠ [] ∧ ∀ src ∈ s.pendingOn k, s.Open src
  block : s.spawned aw.root = true →
    (s.block = .park ∧ (s.cell aw.root).shared.cell.state ≠ .completed) ∨
      ∃ o i, s.block = .done o ∧ WonBy (s.cell aw.root).shared.log i o

/-- A call that is under way and is not polling can go on, if it holds the lock of the result or
nobody does. -/
theorem callStep_go {W : Type} {i : ι} {s : Shared ι F T P W} {pc : Pc F T P W} (hidle : pc ≠ .idle)
    (hpoll : pc.polling = false) (hlock : pc.inLock = true ∨ s.resultLock = false) :
    (callStep i s pc .go).isSome = true := by
  cases pc with
  | idle => exact absurd rfl hidle
  | run pc =>
    cases pc with
    | poll => cases hpoll
    | complete pc =>
      cases pc with
      | lock =>
        have hfree := hlock.resolve_left fun hin => by cases hin
        simp [callStep, TaskCell.runStep, TaskCell.completeStep, hfree]
      | swap =>
        simp only [callStep, TaskCell.runStep, TaskCell.completeStep]
        split <;> rfl
      | _ => rfl
    | claim | take | load | cas =>
      simp only [callStep, TaskCell.runStep]
      split <;> rfl
    | _ => rfl
  | wake pc =>
    cases pc with
    | enqueue => rfl
    | load | cas =>
      simp only [callStep, TaskCell.wakeByRefStep]
      split <;> rfl
  | cancel pc =>
    cases pc with
    | publish =>
      have hfree := hlock.resolve_left fun hin => by cases hin
      simp [callStep, JoinHandle.cancelStep, hfree]
    | swap =>
      simp only [callStep, JoinHandle.cancelStep]
      split <;> rfl
    | _ => rfl
  | join pc =>
    cases pc with
    | lock =>
      have hfree := hlock.resolve_left fun hin => by cases hin
      simp [callStep, JoinHandle.pollStep, hfree]
    | take | load =>
      simp only [callStep, JoinHandle.pollStep]
      split <;> rfl
    | _ => rfl

variable [DecidableEq κ] [DecidableEq ε] [DecidableEq ι] {aw : Awaits κ} {fut : κ → F}
  {s : TaskSystem κ ε ι F T P} {k : κ} {i : ι}

/-- A step of a call that is enabled is a step of the system. -/
theorem TaskSystem.step_call {a : Label F T P (Awaiter κ)} (hk : s.spawned k = true)
    (ha : a.plain = true) (hend : ∀ fut r, a = .polled fut r → s.mayEnd k r = true)
    (h : (callStep i (s.cell k).shared ((s.cell k).loc i) a).isSome = true) :
    TaskSystem.step aw s (.call k i a) ≠ none := by
  obtain ⟨r, hr⟩ := Option.isSome_iff_exists.1 h
  have hcall : s.callOn aw k i a = some (s.moved aw k i r.1 r.2) := by
    simp [TaskSystem.callOn, hk, hr]
  cases a with
  | polled fut r => simp [TaskSystem.step, hend fut r rfl, hcall]
  | _ => simp [TaskSystem.step, ha, hcall]

section
variable [Fintype ι] {G : TaskSystem κ ε ι F T P → SystemAct κ ε ι F T P → Prop}
  (h : (systemMachine aw fut).Reachable G s) (hstuck : (systemMachine aw fut).Stuck ownAct s)
include h hstuck

/-- Nobody holds the lock of a result in a system at rest. -/
theorem result_unlocked (hk : s.spawned k = true) : (s.cell k).shared.resultLock = false := by
  have hfree : ∀ i, ((s.cell k).loc i).inLock = false := by
    intro i
    by_contra hlock
    rw [Bool.not_eq_false] at hlock
    refine TaskSystem.step_call (a := .go) hk rfl (fun _ _ ha => by cases ha)
      (callStep_go ?_ ?_ (.inl hlock)) (hstuck (.call k i .go) rfl) <;>
      generalize (s.cell k).loc i = pc at hlock ⊢
    · rintro rfl
      cases hlock
    · cases pc with
      | run pc =>
        cases pc with
        | poll => cases hlock
        | _ => rfl
      | _ => rfl
  have htot := reachable_locked (reachable_cell h k)
  simp only [total, Pc.lockTokens, hfree, Bool.toNat_false, Finset.sum_const_zero, Nat.add_zero,
    Shared.lockTokens] at htot
  simpa using htot

/-- No call is under way, but for polls. -/
theorem idle_or_polling (hk : s.spawned k = true) (i : ι) :
    (s.cell k).loc i = .idle ∨ ((s.cell k).loc i).polling = true := by
  by_contra hno
  rw [not_or, Bool.not_eq_true] at hno
  exact TaskSystem.step_call (a := .go) hk rfl (fun _ _ ha => by cases ha)
    (callStep_go hno.1 hno.2 (.inr (result_unlocked h hstuck hk))) (hstuck (.call k i .go) rfl)

/-- No poll of a handle is under way. -/
theorem polls_none (w : Awaiter κ) : s.polls w = none := by
  by_contra hne
  obtain ⟨k, hk⟩ := Option.ne_none_iff_exists'.1 hne
  obtain ⟨-, i, hi⟩ := (reachable_pollsOk h).underWay w k hk
  have hspawned : s.spawned k = true := by
    by_contra hno
    rw [Bool.not_eq_true] at hno
    rw [reachable_unspawned h k hno] at hi
    cases hi
  rcases idle_or_polling h hstuck hspawned i with hidle | hpoll
  · rw [hidle] at hi
    cases hi
  · generalize (s.cell k).loc i = pc at hi hpoll
    cases pc with
    | join => cases hpoll
    | _ => cases hi

/-- No call is under way in a system at rest. -/
theorem not_busy [Inhabited T] (hk : s.spawned k = true) (i : ι) : (s.cell k).loc i = .idle := by
  rcases idle_or_polling h hstuck hk i with hidle | hpoll
  · exact hidle
  · generalize hpc : (s.cell k).loc i = pc at hpoll
    unfold Pc.polling at hpoll
    split at hpoll
    · next f =>
      refine absurd (hstuck (.call k i (.polled f (.ready default))) rfl) ?_
      refine TaskSystem.step_call (a := .polled f (.ready default)) hk rfl (fun f' r hr => ?_) ?_
      · cases hr
        simp [TaskSystem.mayEnd, polls_none h hstuck]
      · rw [hpc]
        rfl
    · cases hpoll

/-- No handle is queued in a system at rest. -/
theorem queue_empty [Inhabited T] [Inhabited ι] (hk : s.spawned k = true) :
    (s.cell k).shared.queued = 0 := by
  by_contra hne
  refine TaskSystem.step_call (a := .runQueued) hk rfl (fun _ _ ha => by cases ha) ?_
    (hstuck (.call k default .runQueued) rfl)
  rw [not_busy h hstuck hk default]
  simp [callStep, startCall, Nat.pos_of_ne_zero hne]

/-- No waker is owed a wake in a system at rest. -/
theorem owed_none [Inhabited T] [Inhabited ι] {w : Awaiter κ}
    (hw : ∀ k, w = .task k → s.spawned k = true) : s.owed w = 0 := by
  by_contra hne
  have hpos := Nat.pos_of_ne_zero hne
  have hst := hstuck (.wake w default) rfl
  cases w with
  | blocked => simp [systemMachine, TaskSystem.step, hpos] at hst
  | task k =>
    have hk := hw k rfl
    have hidle : (((s.paid (.task k)).cell k).loc default) = .idle := not_busy h hstuck hk default
    have hspawned : (s.paid (.task k)).spawned k = true := hk
    simp [systemMachine, TaskSystem.step, hpos, TaskSystem.callOn, hspawned, hidle, callStep,
      startCall] at hst

/-- A task of a system at rest that has not completed is suspended and not alerted. -/
theorem suspended_of_stuck [Inhabited T] [Inhabited ι] (hk : s.spawned k = true)
    (hs : (s.cell k).shared.cell.state ≠ .completed) :
    Suspended (s.cell k) ∧ ¬ Alerting s k := by
  have hkept := wakeKept_of_awaitedBy (reachable_cell h k)
  have hidle := not_busy h hstuck hk
  have hqueue := queue_empty h hstuck hk
  have never : ∀ {p : Pc F T P (Awaiter κ) → Bool}, p .idle = false →
      ¬ ∃ i, p ((s.cell k).loc i) = true := by
    rintro p hp ⟨i, hi⟩
    rw [hidle i, hp] at hi
    cases hi
  have hsch : (s.cell k).shared.cell.state ≠ .scheduled := by
    intro hsch
    rcases hkept.scheduled hsch with hq | hw | hg
    · omega
    · exact never rfl hw
    · exact never rfl hg
  refine ⟨?_, ?_⟩
  · rcases TaskState.idle_or_running hs hsch with hst | hst
    · exact .inl hst
    · exact absurd (hkept.running hst) (never rfl)
  · rintro (ho | hc | hu | hw)
    · have := owed_none h hstuck (w := .task k) (fun k' hk' => by cases hk'; exact hk)
      omega
    · exact hs hc
    · rcases hkept.underWay hu hs with hq | hw | hg
      · omega
      · exact never rfl hw
      · exact never rfl hg
    · exact never rfl hw

/-- A handle that was last polled with a waker that has not been woken is that of a task that has
not completed. -/
theorem open_of_pending [Inhabited T] {w : Awaiter κ} (hk : s.spawned k = true)
    (hlast : lastReturn (s.cell k).shared.log = some (.pending w))
    (hw : ¬ WokenSince w (s.cell k).shared.log) : (s.cell k).shared.cell.state ≠ .completed := by
  intro hs
  have hquiet := reachable_quietUnwind (reachable_cell h k)
  rcases reachable_wakerWoken hquiet w hlast hs with hw' | ⟨j, hj⟩
  · exact hw hw'
  · rw [not_busy h hstuck hk j] at hj
    cases hj

omit hstuck [Fintype ι] in
/-- A task whose handle was polled is spawned. -/
theorem spawned_of_polled {r : JoinPoll T P (Awaiter κ)}
    (hlast : lastReturn (s.cell k).shared.log = some r) : s.spawned k = true := by
  by_contra hno
  rw [Bool.not_eq_true] at hno
  rw [reachable_unspawned h k hno] at hlast
  cases hlast

/-- What a task of a system at rest waits for is open. -/
theorem task_waits [Inhabited T] [Inhabited ι] (hk : s.spawned k = true)
    (hs : (s.cell k).shared.cell.state ≠ .completed) :
    s.pendingOn k ≠ [] ∧ ∀ src ∈ s.pendingOn k, s.Open src := by
  obtain ⟨hsusp, halert⟩ := suspended_of_stuck h hstuck hk hs
  have hwaits := reachable_waitsFor h
  refine ⟨reachable_suspendedWaits h k hsusp, ?_⟩
  rintro (k' | e) hsrc
  · obtain ⟨-, hlast⟩ := hwaits.polled k k' hsrc
    have hk' := spawned_of_polled h hlast
    exact ⟨hk', open_of_pending h hstuck hk' hlast fun hw => halert (hwaits.woken k k' hsrc hw)⟩
  · by_contra hf
    exact halert (hwaits.fired k e hsrc (by simpa [TaskSystem.Open] using hf))

/-- Where `block_on` stands in a system at rest. -/
theorem block_rests [Inhabited T] [Inhabited ι] (hk : s.spawned aw.root = true) :
    (s.block = .park ∧ (s.cell aw.root).shared.cell.state ≠ .completed) ∨
      ∃ o i, s.block = .done o ∧ WonBy (s.cell aw.root).shared.log i o := by
  have hblock := reachable_blockWaits h
  have hst := hstuck (.block default) rfl
  cases hb : s.block with
  | poll =>
    have hborrow : (s.cell aw.root).shared.joinBorrowed = false := by
      by_contra hne
      rw [Bool.not_eq_false] at hne
      obtain ⟨j, hj⟩ := (reachable_joinBorrowed (reachable_cell h aw.root)).2 hne
      rw [not_busy h hstuck hk j] at hj
      cases hj
    simp [systemMachine, TaskSystem.step, hb, TaskSystem.callOn, hk, not_busy h hstuck hk, callStep,
      startCall, hborrow] at hst
  | polling =>
    exact absurd (polls_none h hstuck .blocked) ((reachable_pollsOk h).inBlock.2 hb)
  | park =>
    left
    obtain ⟨hlast, hwoken⟩ := hblock.parked hb
    refine ⟨rfl, open_of_pending h hstuck hk hlast fun hw => ?_⟩
    rcases hwoken hw with ho | ht
    · have := owed_none h hstuck (w := .blocked) (fun k' hk' => by cases hk')
      omega
    · simp [systemMachine, TaskSystem.step, hb, ht] at hst
  | done o =>
    obtain ⟨i, hi⟩ := reachable_firstReady (reachable_cell h aw.root) o (hblock.returned o hb)
    exact .inr ⟨o, i, rfl, hi⟩

/-- In every state reached in which the system has nothing left to do of its own, every task has
completed or has found something pending, all of which is open, and `block_on` has returned the
outcome of its task or is parked and the task has not completed: no wake has been lost between a
task and who awaits it. -/
theorem rests_on_open [Inhabited T] [Inhabited ι] : RestsOnOpen aw s where
  task _ hk := or_iff_not_imp_left.2 fun hs => task_waits h hstuck hk hs
  block hk := block_rests h hstuck hk

end

/-- `block_on` awaits one task, and this task another one. -/
def chain : Awaits Bool where
  parent
    | false => some .blocked
    | true => some (.task false)
  root := false
  parent_root := rfl
  eq_root {k} hk := by
    cases k with
    | false => rfl
    | true => cases hk

/-- A task that is queued is polled. -/
def polledSteps (k : Bool) : List (SystemAct Bool Unit Unit ℕ ℕ ℕ) :=
  [.call k () .runQueued, .call k () .go, .call k () .go]

/-- A call that is under way moves `n` times. -/
def callSteps (k : Bool) (n : ℕ) : List (SystemAct Bool Unit Unit ℕ ℕ ℕ) :=
  List.replicate n (.call k () .go)

/-- Both tasks are spawned and polled, and `block_on` polls the first: it waits for the second,
which waits for an event. -/
def chainWaitsRun : List (SystemAct Bool Unit Unit ℕ ℕ ℕ) :=
  [.spawn false, .spawn true, .block ()] ++ callSteps false 5 ++ polledSteps false ++
    [.pollJoin false () true ()] ++ callSteps true 5 ++ .call false () (.polled 1 .pending) ::
    callSteps false 3 ++ polledSteps true ++
    [.pollEvent true () (), .call true () (.polled 1 .pending)] ++ callSteps true 3

/-- No call is under way, no handle is queued, no waker is owed a wake and `block_on` waits. -/
def ChainAtRest (s : TaskSystem Bool Unit Unit ℕ ℕ ℕ) : Prop :=
  (∀ k, (s.cell k).loc () = .idle ∧ (s.cell k).shared.queued = 0 ∧ s.owed (.task k) = 0) ∧
    s.owed .blocked = 0 ∧ s.block ≠ .poll ∧ s.token = false

instance (s : TaskSystem Bool Unit Unit ℕ ℕ ℕ) : Decidable (ChainAtRest s) :=
  inferInstanceAs (Decidable (_ ∧ _ ∧ _ ∧ _))

/-- Then the system has nothing left to do of its own. -/
theorem ChainAtRest.stuck {aw : Awaits Bool} {fut : Bool → ℕ} {s : TaskSystem Bool Unit Unit ℕ ℕ ℕ}
    (h : ChainAtRest s) : (systemMachine aw fut).Stuck ownAct s := by
  obtain ⟨hcalls, hblocked, hpoll, htoken⟩ := h
  intro a ha
  cases a with
  | call k i a =>
    obtain ⟨hidle, hqueue, -⟩ := hcalls k
    cases a with
    | polled fut r =>
      simp [systemMachine, TaskSystem.step, TaskSystem.callOn, hidle, callStep, startCall]
    | runQueued | go =>
      simp [systemMachine, TaskSystem.step, TaskSystem.callOn, hidle, hqueue, callStep, startCall]
    | _ => cases ha
  | wake w i =>
    cases w with
    | task k => simp [systemMachine, TaskSystem.step, (hcalls k).2.2]
    | blocked => simp [systemMachine, TaskSystem.step, hblocked]
  | block i =>
    simp only [systemMachine, TaskSystem.step]
    split
    · next hb => exact absurd hb hpoll
    · simp [htoken]
    · rfl
    · rfl
  | _ => cases ha

/-- The system rests there, with `block_on` parked and the first task waiting for the second. -/
theorem rests_on_open_chain :
    ∃ s, (systemMachine chain fun _ => 0).run (.new fun _ => 0) chainWaitsRun = some s ∧
      s.block = .park ∧ s.pendingOn false = [.task true] ∧ RestsOnOpen chain s := by
  have hrun : ((systemMachine chain fun _ => 0).run (.new fun _ => 0) chainWaitsRun).any (fun s =>
      decide (ChainAtRest s ∧ s.block = .park ∧ s.pendingOn false = [.task true])) = true := by
    decide +kernel
  obtain ⟨s, hs, hrest⟩ := (Option.any_eq_true _ _).1 hrun
  obtain ⟨hrest, hblock, hpending⟩ := of_decide_eq_true hrest
  exact ⟨s, hs, hblock, hpending, rests_on_open (Machine.reach_of_run chainWaitsRun hs) hrest.stuck⟩

section
variable [Fintype ι] {G : TaskSystem κ ε ι F T P → SystemAct κ ε ι F T P → Prop}
  (h : (systemMachine aw fut).Reachable G s) (hstuck : (systemMachine aw fut).Stuck ownAct s)
include h hstuck

/-- Where no task awaits itself by way of others and all events have fired, a system that has
nothing left to do of its own has completed all its tasks, and `block_on` has returned the outcome
of the root. -/
theorem completes_when_fired [Inhabited T] [Inhabited ι]
    (hwf : WellFounded fun k' k => aw.parent k' = some (.task k)) (hfired : ∀ e, s.fired e = true) :
    (∀ k, s.spawned k = true → (s.cell k).shared.cell.state = .completed) ∧
    (s.spawned aw.root = true →
      ∃ o i, s.block = .done o ∧ WonBy (s.cell aw.root).shared.log i o) := by
  have hdone : ∀ k, s.spawned k = true → (s.cell k).shared.cell.state = .completed := by
    intro k
    -- a task waits for tasks that it awaits, so the induction is on who is awaited
    induction k using hwf.induction with
    | h k ih =>
      intro hk
      by_contra hs
      obtain ⟨hne, hopen⟩ := task_waits h hstuck hk hs
      obtain ⟨src, hsrc⟩ := List.exists_mem_of_ne_nil _ hne
      have hsrc' := hopen src hsrc
      cases src with
      | task k' => exact hsrc'.2 (ih k' ((reachable_waitsFor h).polled k k' hsrc).1 hsrc'.1)
      | event e =>
        rw [TaskSystem.Open, hfired e] at hsrc'
        cases hsrc'
  refine ⟨hdone, fun hk => ?_⟩
  rcases block_rests h hstuck hk with ⟨-, hs⟩ | hret
  · exact absurd (hdone _ hk) hs
  · exact hret

end

/-- Then the event fires: the second task is woken and completes, the first one is woken and
completes, and `block_on` is woken and returns. -/
def chainCompletesRun : List (SystemAct Bool Unit Unit ℕ ℕ ℕ) :=
  chainWaitsRun ++ [.fire (), .wake (.task true) ()] ++ callSteps true 3 ++ polledSteps true ++
    .call true () (.polled 2 (.ready 7)) :: callSteps true 6 ++ [.wake (.task false) ()] ++
    callSteps false 3 ++ polledSteps false ++ [.pollJoin false () true ()] ++ callSteps true 3 ++
    .call false () (.polled 2 (.ready 8)) :: callSteps false 6 ++
    [.wake .blocked (), .block (), .block ()] ++ callSteps false 3

/-- The system rests there, and `block_on` has returned what the first task came to. -/
theorem completes_when_fired_chain :
    ∃ s, (systemMachine chain fun _ => 0).run (.new fun _ => 0) chainCompletesRun = some s ∧
      (∀ k, s.spawned k = true → (s.cell k).shared.cell.state = .completed) ∧
      (s.spawned false = true →
        ∃ o i, s.block = .done o ∧ WonBy (s.cell false).shared.log i o) ∧
      s.block = .done (.ok 8) := by
  have hwf : WellFounded fun k' k => chain.parent k' = some (.task k) := by
    have hchild : ∀ k', ¬ chain.parent k' = some (.task true) := by
      intro k' hk'
      cases k' <;> cases hk'
    have htrue : Acc (fun k' k => chain.parent k' = some (.task k)) true :=
      ⟨_, fun k' hk' => absurd hk' (hchild k')⟩
    refine ⟨fun k => ?_⟩
    cases k with
    | true => exact htrue
    | false =>
      refine ⟨_, fun k' hk' => ?_⟩
      cases k' with
      | true => exact htrue
      | false => cases hk'
  have hrun : ((systemMachine chain fun _ => 0).run (.new fun _ => 0) chainCompletesRun).any
      (fun s => decide (ChainAtRest s ∧ s.fired () = true ∧ s.block = .done (.ok 8))) = true := by
    decide +kernel
  obtain ⟨s, hs, hrest⟩ := (Option.any_eq_true _ _).1 hrun
  obtain ⟨hrest, hfired, hblock⟩ := of_decide_eq_true hrest
  have hall := completes_when_fired (Machine.reach_of_run chainCompletesRun hs) hrest.stuck hwf
    fun _ => hfired
  exact ⟨s, hs, hall.1, hall.2, hblock⟩

end Hypertile
