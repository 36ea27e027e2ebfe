import Hypertile.Task.Handles
import Hypertile.Task.Outcome

/-!
# Panics of a future's destructor

Only the poll is inside `catch_unwind`. A destructor that panics while `run` drops an ended future
leaves `run` before the outcome is published, one that panics while `run` clears the slot of a
cancelled task leaves it too, and one that panics in `cancel` leaves it before the `JoinHandle` is
woken. `containedUnwind` is what remains: a panic in `cancel` when no waker is registered or about
to be. Under it, and whatever the polls do, no panic reaches the worker loop and a task that
terminated has an outcome and has woken its awaiter (`panic_contained`).
-/

namespace Hypertile

open Machine Machine.Threads

variable {ι F T P W : Type}

/-- A destructor panics only in `cancel`, where no waker of the `JoinHandle` is registered and no
poll is about to register one. -/
def containedUnwind (c : TaskConfig ι F T P W) (a : ι × Label F T P W) : Prop :=
  a.2 = .unwind → c.loc a.1 = .cancel .clear ∧ c.shared.cell.joinWaker = none ∧
    ∀ j, (c.loc j).storesWaker = false

/-- The task has terminated: a poll was `Ready` or panicked, or a `cancel` won. -/
def Terminated (log : List (Event ι T P W)) : Prop :=
  ended log = true ∨ ∃ i, .cancelWon i ∈ log

/-- No call of `run` or `cancel` is in progress. -/
def Quiet (c : TaskConfig ι F T P W) : Prop :=
  ∀ i, (c.loc i).inRun = false ∧ (c.loc i).inCancel = false

/-- Panics are contained: none has left `run`, and once the task has terminated and no call of `run`
or `cancel` is in progress, it has completed with an outcome that the `JoinHandle` gives, and the
waker of its last poll has been woken. -/
structure PanicContained (c : TaskConfig ι F T P W) : Prop where
  /-- `run` always returns normally. -/
  returns : Contained c
  /-- The task has completed, -/
  completed : Terminated c.shared.log → Quiet c → c.shared.cell.state = .completed
  /-- the first `Ready` is returned, about to be, or the next poll returns it: the winner's outcome
  is in the result slot, or the slot is empty and the winner is a `cancel`, -/
  available : Terminated c.shared.log → Quiet c →
    (firstReady c.shared.log).isSome ∨ (∃ j, (c.loc j).returnsReady = true) ∨
      ∃ i o, WonBy c.shared.log i o ∧ (c.shared.cell.result = some o ∨
        c.shared.cell.result = none ∧ o = .error .cancelled)
  /-- and the waker of the last poll has been woken. -/
  woken : Terminated c.shared.log → Quiet c →
    ∀ w, lastReturn c.shared.log = some (.pending w) → WokenSince w c.shared.log

variable [DecidableEq ι] {fut : F} {c : TaskConfig ι F T P W}

omit [DecidableEq ι] in
/-- A contained panic is a quiet one. -/
theorem containedUnwind.quiet {a : ι × Label F T P W} (h : containedUnwind c a) : quietUnwind c a :=
  fun ha _ => (h ha).2

/-- No panic leaves `run` where panics are contained. -/
theorem reachable_contained (h : (taskMachine fut).Reachable containedUnwind c) : Contained c := by
  refine task_invariant (I := Contained) (J := fun _ => True) h (fun _ _ => trivial) rfl ?_
  intro c i a s' pc pc' _ hI hG hpc ht
  unfold Contained at hI ⊢
  cases ht with
  | dropUnwind | runClearUnwind =>
    have hcancel := (hG rfl).1
    rw [hpc] at hcancel
    cases hcancel
  | _ => simpa [Event.isRunUnwind] using hI

section
variable [Fintype ι]

/-- `DropCompletes` where panics are contained. -/
theorem reachable_dropCompletes (h : (taskMachine fut).Reachable containedUnwind c) :
    DropCompletes c := by
  refine task_invariant (J := (taskMachine fut).Reachable containedUnwind) h (fun _ h => h) nofun ?_
  intro c i a s' pc pc' hr hI hG hpc ht
  refine hI.step hr (fun ha => ?_) hpc ht
  have hcancel := (hG ha).1
  rw [← hpc, hcancel]
  rfl

omit [DecidableEq ι] [Fintype ι] in
/-- With no call of `run` or `cancel` in progress, no call is at a point of theirs. -/
theorem Quiet.not_at (h : Quiet c) {p : Pc F T P W → Bool}
    (hp : ∀ pc, p pc = true → pc.inRun = true ∨ pc.inCancel = true) (i : ι) :
    p (c.loc i) = false := by
  by_contra hne
  rw [Bool.not_eq_false] at hne
  obtain ⟨hrun, hcancel⟩ := h i
  rcases hp _ hne with hin | hin
  · rw [hrun] at hin
    cases hin
  · rw [hcancel] at hin
    cases hin

omit [DecidableEq ι] [Fintype ι] in
/-- `complete` is called by `run`. -/
theorem Pc.settling_inCall (pc : Pc F T P W) (h : pc.settling = true) :
    pc.inRun = true ∨ pc.inCancel = true := by
  cases pc with
  | run => exact .inl rfl
  | cancel => exact .inr rfl
  | _ => cases h

omit [DecidableEq ι] [Fintype ι] in
/-- An ended future is dropped by `run`. -/
theorem Pc.dropping_inCall (pc : Pc F T P W) (h : pc.dropping = true) :
    pc.inRun = true ∨ pc.inCancel = true := by
  cases pc with
  | run => exact .inl rfl
  | _ => cases h

omit [DecidableEq ι] [Fintype ι] in
/-- Whoever is about to complete the task is in `complete`. -/
theorem Pc.willComplete_settling {pc : Pc F T P W} (h : pc.willComplete = true) :
    pc.settling = true := by
  unfold Pc.willComplete at h
  split at h
  case h_1 | h_2 => rfl
  case h_3 => cases h

/-- A task that has terminated, with no call of `run` or `cancel` in progress, has completed. -/
theorem completed_of_terminated (h : (taskMachine fut).Reachable containedUnwind c)
    (ht : Terminated c.shared.log) (hq : Quiet c) : c.shared.cell.state = .completed := by
  rcases ht with hend | ⟨i, hi⟩
  · rcases (reachable_endedOk h).gone hend with ⟨j, hj⟩ | hd
    · rw [hq.not_at Pc.dropping_inCall j] at hj
      cases hj
    · rcases reachable_dropCompletes h hd with hs | ⟨j, hj⟩
      · exact hs
      · have hset := Pc.willComplete_settling hj
        rw [hq.not_at Pc.settling_inCall j] at hset
        cases hset
  · by_contra hs
    have hwon := reachable_won h
    have hpos := occurrences_pos Event.isWin hi rfl
    rw [Shared.open_of_ne hs] at hwon
    omega

/-- The outcome of a completed task, with no call of `run` or `cancel` in progress, has been
published, or a panic left the `cancel` that won. -/
theorem published_of_quiet (h : (taskMachine fut).Reachable containedUnwind c)
    (hs : c.shared.cell.state = .completed) (hq : Quiet c) :
    occurrences Event.isWrite c.shared.log + occurrences Event.isCancelUnwind c.shared.log = 1 := by
  have htot := reachable_published h
  have hnone : ∀ i, (c.loc i).outcomeTokens = 0 := by
    intro i
    have hpub := hq.not_at (p := Pc.publishes)
      (fun pc hp => pc.settling_inCall (Pc.wakesJoin_settling (Pc.publishes_wakesJoin hp))) i
    rw [Pc.outcomeTokens, hpub, Bool.toNat_false]
  simp only [total, hnone, Shared.outcomeTokens, Shared.open_completed hs, Finset.sum_const_zero]
    at htot
  omega

/-- Panics are contained under every interleaving of `run`, `wake_by_ref`, `cancel` and polls of the
`JoinHandle`, if a destructor panics only in `cancel`, where no waker of the `JoinHandle` is
registered and no poll is about to register one. -/
theorem panic_contained (h : (taskMachine fut).Reachable containedUnwind c) : PanicContained c := by
  have hquiet : (taskMachine fut).Reachable quietUnwind c := h.mono fun _ _ hG => hG.quiet
  refine ⟨reachable_contained h, completed_of_terminated h, ?_, ?_⟩
  · intro ht hq
    have hs := completed_of_terminated h ht hq
    have hpub := published_of_quiet h hs hq
    cases hres : c.shared.cell.result with
    | some o =>
      obtain ⟨i, hi⟩ := reachable_result h o hres
      exact .inr (.inr ⟨i, o, reachable_justified h _ hi, .inl rfl⟩)
    | none =>
      by_cases hw : 0 < occurrences Event.isWrite c.shared.log
      · rcases reachable_resultTaken h hw hres with hsome | hret
        · exact .inl hsome
        · exact .inr (.inl hret)
      · have hpos : 0 < occurrences Event.isCancelUnwind c.shared.log := by omega
        obtain ⟨e, he, hk⟩ := exists_of_occurrences_pos hpos
        have hjust := reachable_justified h e he
        cases e with
        | cancelUnwound j => exact .inr (.inr ⟨j, _, .inr ⟨rfl, hjust⟩, .inr ⟨rfl, rfl⟩⟩)
        | _ => cases hk
  · intro ht hq w hw
    rcases reachable_wakerWoken hquiet w hw (completed_of_terminated h ht hq) with hwoken | ⟨j, hj⟩
    · exact hwoken
    · have hset := Pc.wakesJoin_settling hj
      rw [hq.not_at Pc.settling_inCall j] at hset
      cases hset

instance [DecidableEq F] [DecidableEq T] [DecidableEq P] [DecidableEq W]
    (c : TaskConfig ι F T P W) (a : ι × Label F T P W) : Decidable (containedUnwind c a) :=
  inferInstanceAs (Decidable (_ → _ ∧ _ ∧ _))

/-- A `cancel` whose drop of the future panics, and a poll of the `JoinHandle` after it. -/
def unwindThenPollRun : List (Bool × Label ℕ ℕ ℕ ℕ) :=
  [(true, .cancel), (true, .go), (true, .unwind), (false, .pollJoin 7), (false, .go), (false, .go),
    (false, .go), (false, .go)]

/-- In that run the `JoinHandle` gives `Cancelled`. -/
theorem panic_contained_unwind_then_poll :
    ∃ c, (taskMachine 0).runIf containedUnwind (taskMachine 0).init unwindThenPollRun = some c ∧
      firstReady c.shared.log = some (.error .cancelled) ∧ PanicContained c :=
  ⟨_, rfl, rfl, panic_contained (Machine.reach_of_runIf unwindThenPollRun rfl)⟩

/-- A poll of the `JoinHandle` that returns `Pending`, and a `run` whose poll is ready and whose
drop of the future panics. -/
def awaitedThenUnwindRun : List (Bool × Label ℕ ℕ ℕ ℕ) :=
  [(true, .pollJoin 7), (true, .go), (true, .go), (true, .go), (true, .go), (true, .go),
    (false, .runQueued), (false, .go), (false, .go), (false, .polled 1 (.ready 5)),
    (false, .unwind)]

/-- In that run the panic leaves `run`, the task stays `RUNNING` and its result is lost; and where a
panic leaves `cancel`, a waker that was registered is not woken. -/
theorem panic_not_contained :
    (∃ c, (taskMachine 0).run (taskMachine 0).init awaitedThenUnwindRun = some c ∧
      c.shared.cell = ⟨none, none, some 7, .running⟩ ∧ (∀ i, c.loc i = .idle) ∧
      ¬ PanicContained c) ∧
    ∃ c, (taskMachine 0).run (taskMachine 0).init pendingThenUnwindRun = some c ∧
      ¬ PanicContained c := by
  refine ⟨⟨_, rfl, rfl, by decide, fun h => ?_⟩, ⟨_, rfl, fun h => ?_⟩⟩
  · exact absurd h.returns Nat.one_ne_zero
  · have hwoken := h.woken (.inr ⟨true, by decide⟩) (by unfold Quiet; decide) 7 rfl
    exact hwoken

end

end Hypertile
