import Hypertile.Task.Ownership

/-!
# Wake-ups

A wake that takes effect must reach the future: it is polled again, or the task completes. `run`
relies on being the only call of `run` between its claim and its return, which clones of the handle
break: a clone may claim a task that was woken while it is polled, find the slot empty and return,
and the runner then finds `RUNNING` and not the `SCHEDULED` that the wake had left. `noSwallow` is
what the comments in `run` take for granted; under it no wake is lost, whatever clones are run and
injected (`no_wake_swallowed`), and with the handles of the code alone it always holds
(`reachable_noSwallow`), which also bounds the number of queued handles.
-/

namespace Hypertile

open Machine Machine.Threads

variable {ι F T P W : Type}

/-- Some wake took effect and no poll has begun since, in a log that has the newest event first. -/
def undelivered : List (Event ι T P W) → Bool
  | [] => false
  | .wakeTookEffect _ :: _ => true
  | .pollBegan _ :: _ => false
  | _ :: older => undelivered older

namespace Pc

/-- The call is a `wake_by_ref` that moved the state from `IDLE` and is about to enqueue. -/
def enqueues : Pc F T P W → Bool
  | .wake .enqueue => true
  | _ => false

/-- The call is a `run` that has claimed the task and is about to take the future. -/
def takes : Pc F T P W → Bool
  | .run .take => true
  | _ => false

/-- The call is a `run` between its claim and the end of the task or of the loop after the poll. -/
def active : Pc F T P W → Bool
  | .run .take | .run (.poll _) | .run (.putBack _) | .run .load | .run (.cas _) => true
  | .run (.drop _ _) | .run (.complete (.lock _)) | .run (.complete (.swap _)) => true
  | _ => false

/-- The call is a `run` that, in this state of the task, will poll it, queue it again or complete
it. -/
def going (st : TaskState) : Pc F T P W → Bool
  | .run .claim | .run (.poll _) | .run (.putBack _) | .run .load | .run (.cas _) =>
    st = .scheduled
  | .run .take | .run .requeue => true
  | .run (.drop _ _) | .run (.complete (.lock _)) | .run (.complete (.swap _)) => true
  | _ => false

end Pc

/-- What `run` takes for granted of a step: it finds the slot empty only when the task has
completed, and dropping an ended future does not panic. -/
def noSwallow (c : TaskConfig ι F T P W) (a : ι × Label F T P W) : Prop :=
  (c.loc a.1 = .run .take → c.shared.cell.future = none → c.shared.cell.state = .completed) ∧
    (a.2 = .unwind → (c.loc a.1).dropping = false)

/-! ## A call that is going to deliver -/

/-- What the step of the call `i` from `s` to `s'` delivers: a poll begins, a handle is queued, or
the task has completed. -/
def Delivers (i : ι) (s s' : Shared ι F T P W) : Prop :=
  s'.cell.state = .completed ∨ s'.log = .pollBegan i :: s.log ∨ s'.log = .enqueued i :: s.log

section
variable {i : ι} {s s' : Shared ι F T P W} {a : Label F T P W} {pc pc' : Pc F T P W}

/-- A call that is going to deliver does so at its next step, or is still going to. -/
theorem CallTrans.going (h : CallTrans i s pc a s' pc') (hcas : pc.CasOk)
    (htake : pc = .run .take → s.cell.future = none → s.cell.state = .completed)
    (hdrop : a = .unwind → pc.dropping = false) (hg : pc.going s.cell.state = true) :
    Delivers i s s' ∨ pc'.going s'.cell.state = true := by
  cases h with
  | claim | drop | completeLock | pollReady | pollPanicked => exact .inr rfl
  | claimLost hs => exact absurd (by simpa [Pc.going] using hg) hs
  | take => exact .inl (.inr (.inl rfl))
  | takeEmpty hf => exact .inl (.inl (htake rfl hf))
  | requeue => exact .inl (.inr (.inr rfl))
  | dropUnwind => cases hdrop rfl
  | completeSwap => exact .inl (.inl rfl)
  | completeSwapLost hs => exact .inl (.inl hs)
  | runLoadScheduled => exact .inr rfl
  | runLoadCompleted hs => exact .inl (.inl hs)
  | runLoad hc hs => exact absurd (by simpa [Pc.going] using hg) hs
  | runCas hs =>
    have hsch : s.cell.state = .scheduled := by simpa [Pc.going] using hg
    rw [hsch] at hs
    subst hs
    rcases hcas with hcas | hcas <;> cases hcas
  | pollPending | putBack | putBackOver | runCasLost | runCasWeak => exact .inr hg
  | _ => cases hg

end

variable [DecidableEq ι] {fut : F} {c : TaskConfig ι F T P W}
  {G : TaskConfig ι F T P W → ι × Label F T P W → Prop}

/-! ## No wake is lost -/

/-- Who sees to a task: in `SCHEDULED` a queued handle, a `wake_by_ref` about to enqueue or a call
of `run` that is going to deliver; in `RUNNING` a call of `run`; and where a wake is undelivered, in
`RUNNING` and `IDLE`, a call of `run` about to poll. -/
structure WakeKept (c : TaskConfig ι F T P W) : Prop where
  scheduled : c.shared.cell.state = .scheduled → 0 < c.shared.queued ∨
    (∃ i, (c.loc i).enqueues = true) ∨ ∃ i, (c.loc i).going .scheduled = true
  running : c.shared.cell.state = .running → ∃ i, (c.loc i).active = true
  undelivered : undelivered c.shared.log = true →
    c.shared.cell.state = .running ∨ c.shared.cell.state = .idle → ∃ i, (c.loc i).takes = true

omit [DecidableEq ι] in
/-- A call that is active is going to deliver once the task is scheduled again. -/
theorem Pc.active_going {pc : Pc F T P W} (h : pc.active = true) : pc.going .scheduled = true := by
  unfold Pc.active at h
  split at h
  case h_9 => cases h
  all_goals rfl

omit [DecidableEq ι] in
/-- A call that is about to poll is going to deliver, whatever the state. -/
theorem Pc.takes_going {pc : Pc F T P W} (h : pc.takes = true) (st : TaskState) :
    pc.going st = true := by
  unfold Pc.takes at h
  split at h
  case h_1 => rfl
  case h_2 => cases h

/-- Every step that meets the guard keeps what `RUNNING` says. -/
theorem WakeKept.running_step {i : ι} {a : Label F T P W} {s' : Shared ι F T P W}
    {pc pc' : Pc F T P W} (h : WakeKept c) (hG : noSwallow c (i, a)) (hpc : c.loc i = pc)
    (ht : CallTrans i c.shared pc a s' pc') (hs' : s'.cell.state = .running) :
    ∃ j, (Function.update c.loc i pc' j).active = true := by
  have hrun := h.running
  rw [exists_split i, hpc] at hrun
  rw [exists_update]
  obtain ⟨htake, hdrop⟩ := hG
  simp only [hpc] at htake hdrop
  generalize Others Pc.active c.loc i = D at hrun ⊢
  cases ht with
  | claim | take | pollReady | pollPending | pollPanicked | putBack | putBackOver | runLoad
  | runCasLost | runCasWeak | drop | completeLock => exact .inl rfl
  | takeEmpty hf => rw [htake rfl hf] at hs'; cases hs'
  | runCas | completeSwap | wakeCas | wakeCasRunning | cancelSwap => cases hs'
  | runLoadCompleted hs | runLoadScheduled hs | completeSwapLost hs => rw [hs] at hs'; cases hs'
  | dropUnwind => cases hdrop rfl
  | _ => simpa [Pc.active] using hrun hs'

/-- Every step that meets the guard keeps what `SCHEDULED` says. -/
theorem WakeKept.scheduled_step {i : ι} {a : Label F T P W} {s' : Shared ι F T P W}
    {pc pc' : Pc F T P W} (h : WakeKept c) (hG : noSwallow c (i, a))
    (hpc : c.loc i = pc) (ht : CallTrans i c.shared pc a s' pc')
    (hs' : s'.cell.state = .scheduled) :
    0 < s'.queued ∨ (∃ j, (Function.update c.loc i pc' j).enqueues = true) ∨
      ∃ j, (Function.update c.loc i pc' j).going .scheduled = true := by
  have hsch := h.scheduled
  rw [exists_split i, exists_split i, hpc] at hsch
  rw [exists_update, exists_update]
  obtain ⟨htake, hdrop⟩ := hG
  simp only [hpc] at htake hdrop
  cases ht with
  | runQueued | runClone | take | pollReady | pollPending | pollPanicked | putBack | putBackOver
  | runLoadScheduled | runCasLost | runCasWeak | drop | completeLock =>
    exact .inr (.inr (.inl rfl))
  | injectClone | requeue | wakeEnqueue => exact .inl (Nat.succ_pos _)
  | wakeCas => exact .inr (.inl (.inl rfl))
  | wakeCasRunning hs =>
    obtain ⟨j, hj⟩ := h.running hs
    refine .inr (.inr (.inr ⟨j, ?_, Pc.active_going hj⟩))
    rintro rfl
    rw [hpc] at hj
    cases hj
  | claim | runCas | completeSwap | cancelSwap => cases hs'
  | claimLost hs | runLoad _ hs => exact absurd hs' hs
  | takeEmpty hf => rw [htake rfl hf] at hs'; cases hs'
  | runLoadCompleted hs | completeSwapLost hs => rw [hs] at hs'; cases hs'
  | dropUnwind => cases hdrop rfl
  | _ => simpa [Pc.enqueues, Pc.going] using hsch hs'

/-- Every step that meets the guard keeps what an undelivered wake says. -/
theorem WakeKept.undelivered_step {i : ι} {a : Label F T P W} {s' : Shared ι F T P W}
    {pc pc' : Pc F T P W} (h : WakeKept c) (hG : noSwallow c (i, a)) (hcas : pc.CasOk)
    (hpc : c.loc i = pc) (ht : CallTrans i c.shared pc a s' pc') (hu : Hypertile.undelivered s'.log = true)
    (hs' : s'.cell.state = .running ∨ s'.cell.state = .idle) :
    ∃ j, (Function.update c.loc i pc' j).takes = true := by
  have hund := h.undelivered
  rw [exists_split i, hpc] at hund
  rw [exists_update]
  have htake := hG.1
  simp only [hpc] at htake
  generalize Others Pc.takes c.loc i = D at hund ⊢
  cases ht with
  | claim => exact .inl rfl
  | take => cases hu
  | takeEmpty hf => rw [htake rfl hf] at hs'; rcases hs' with hs' | hs' <;> cases hs'
  | wakeLoadScheduled hs => rw [Shared.emit_cell, hs] at hs'; rcases hs' with hs' | hs' <;> cases hs'
  | wakeCas | wakeCasRunning | completeSwap | cancelSwap => rcases hs' with hs' | hs' <;> cases hs'
  | runCas hs =>
    rw [← hs] at hcas
    simpa [Pc.takes] using hund hu (Or.symm hcas)
  | _ => simpa [Pc.takes] using hund hu hs'

/-- `WakeKept` in every state reached by steps that meet the guard. -/
theorem reachable_wakeKept (h : (taskMachine fut).Reachable noSwallow c) : WakeKept c := by
  refine task_invariant h (fun _ h => reachable_casOk h) ⟨fun _ => .inl Nat.one_pos, nofun, nofun⟩ ?_
  intro c i a s' pc pc' hcas hI hG hpc ht
  exact ⟨hI.scheduled_step hG hpc ht, hI.running_step hG hpc ht,
    hI.undelivered_step hG (hpc ▸ hcas i) hpc ht⟩

/-- Where a wake that took effect since the last poll began is on its way to the future: a handle is
queued, a `wake_by_ref` is about to enqueue one, or a call of `run` is going to deliver it. -/
def WakeUnderWay (c : TaskConfig ι F T P W) : Prop :=
  0 < c.shared.queued ∨ (∃ i, (c.loc i).enqueues = true) ∨
    ∃ i, (c.loc i).going c.shared.cell.state = true

omit [DecidableEq ι] in
/-- An undelivered wake of a task that has not completed is under way. -/
theorem WakeKept.underWay (h : WakeKept c) (hu : Hypertile.undelivered c.shared.log = true)
    (hs : c.shared.cell.state ≠ .completed) : WakeUnderWay c := by
  by_cases hsch : c.shared.cell.state = .scheduled
  · rw [WakeUnderWay, hsch]
    exact h.scheduled hsch
  · obtain ⟨i, hi⟩ := h.undelivered hu (Or.symm (TaskState.idle_or_running hs hsch))
    exact .inr (.inr ⟨i, Pc.takes_going hi _⟩)

omit [DecidableEq ι] in
/-- A call that is going to deliver is a call of `run`. -/
theorem Pc.going_inRun {st : TaskState} {pc : Pc F T P W} (h : pc.going st = true) :
    pc.inRun = true := by
  cases pc with
  | run => rfl
  | _ => cases h

/-- No wake has been swallowed: one that took effect since the last poll began, of a task that has
not completed, is under way. -/
def WakeSurvives (c : TaskConfig ι F T P W) : Prop :=
  undelivered c.shared.log = true → c.shared.cell.state ≠ .completed → WakeUnderWay c

/-- Handles of a task, clones included, that are run and injected by anyone at any time swallow no
wake, in every run in which a call of `run` finds the slot empty only when the task has completed
and no panic of a destructor leaves `run` before it completes the task. A wake under way is
delivered: at each step of a call that is going to deliver it a poll begins, a handle is queued, the
task has completed, or the call is still going to. In particular a task that has not completed is
never left with an undelivered wake, nothing queued and no call inside `run` or `wake_by_ref`. -/
theorem no_wake_swallowed (h : (taskMachine fut).Reachable noSwallow c) :
    WakeSurvives c ∧
    (∀ i a s' pc', (c.loc i).going c.shared.cell.state = true → noSwallow c (i, a) →
      callStep i c.shared (c.loc i) a = some (s', pc') →
      Delivers i c.shared s' ∨ pc'.going s'.cell.state = true) ∧
    ¬ (undelivered c.shared.log = true ∧ c.shared.cell.state ≠ .completed ∧
      c.shared.queued = 0 ∧ ∀ i, (c.loc i).inRun = false ∧ (c.loc i).enqueues = false) := by
  have hkept := reachable_wakeKept h
  refine ⟨hkept.underWay, ?_, ?_⟩
  · intro i a s' pc' hg hG hstep
    exact (callStep_trans hstep).going (reachable_casOk h i) hG.1 hG.2 hg
  · rintro ⟨hu, hs, hq, hquiet⟩
    rcases hkept.underWay hu hs with hpos | ⟨i, hi⟩ | ⟨i, hi⟩
    · omega
    · rw [(hquiet i).2] at hi
      cases hi
    · have hrun := Pc.going_inRun hi
      rw [(hquiet i).1] at hrun
      cases hrun

instance [DecidableEq F] [DecidableEq T] [DecidableEq P] [DecidableEq W]
    (c : TaskConfig ι F T P W) (a : ι × Label F T P W) : Decidable (noSwallow c a) :=
  inferInstanceAs (Decidable ((_ → _ → _) ∧ (_ → _)))

/-- A task that is woken while it is polled, and a clone that is run after the first call of `run`
has queued the task again. -/
def cloneAfterRequeueRun : List (Fin 3 × Label ℕ ℕ ℕ ℕ) :=
  [(0, .runQueued), (0, .go), (0, .go), (1, .wake), (1, .go), (1, .go), (0, .polled 1 .pending),
    (0, .go), (0, .go), (0, .go), (2, .runClone), (2, .go)]

/-- In that run the clone has claimed the task: the wake is under way. -/
theorem no_wake_swallowed_clone_after_requeue :
    ∃ c, (taskMachine 0).runIf noSwallow (taskMachine 0).init cloneAfterRequeueRun = some c ∧
      undelivered c.shared.log = true ∧ WakeSurvives c :=
  ⟨_, rfl, rfl, (no_wake_swallowed (Machine.reach_of_runIf cloneAfterRequeueRun rfl)).1⟩

/-- The same task, and a clone that is run while the first call of `run` is still polling it: the
clone claims the task, finds the slot empty and returns. -/
def cloneDuringPollRun : List (Fin 3 × Label ℕ ℕ ℕ ℕ) :=
  [(0, .runQueued), (0, .go), (0, .go), (1, .wake), (1, .go), (1, .go), (2, .runClone), (2, .go),
    (2, .go), (0, .polled 1 .pending), (0, .go), (0, .go), (0, .go)]

/-- In that run the task is left `IDLE` with its future stored, nothing queued and nobody inside
`run` or `wake_by_ref`, after a wake that took effect during the last poll: the guard of
`no_wake_swallowed` cannot be left out. -/
theorem wake_swallowed_by_clone :
    ∃ c, (taskMachine 0).run (taskMachine 0).init cloneDuringPollRun = some c ∧
      c.shared.cell = ⟨some 1, none, none, .idle⟩ ∧ c.shared.queued = 0 ∧
      (∀ i, c.loc i = .idle) ∧ ¬ WakeSurvives c := by
  refine ⟨_, rfl, rfl, rfl, by decide, fun h => ?_⟩
  rcases h rfl nofun with hq | ⟨i, hi⟩ | ⟨i, hi⟩
  · cases hq
  all_goals revert i; decide

end Hypertile
