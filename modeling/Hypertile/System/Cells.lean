import Hypertile.System.Core

/-!
# The tasks of a system, each for itself

What a task does in a system, seen from its own cell, is a run of the task machine in which its
`JoinHandle` is polled with the waker of its awaiter alone (`awaitedBy`), so the results about one
task hold of every task. Three more of them are needed here: the handle is polled by one call at a
time, a task is left suspended by a poll that returned `Pending` and by nothing else
(`Suspended.of_step`), and a wake stays until a poll begins or the task completes (`Woken.step`).

`CallTrans.noted` says what a step adds to the log that matters to other tasks.
-/

namespace Hypertile

open Machine Machine.Threads

variable {ι F T P W : Type}

/-- The handle is polled with the waker of its awaiter, if it has one; nobody runs or injects a
clone of the handle of the task, and no destructor panics. -/
def awaitedBy (awaiter : Option W) (_ : TaskConfig ι F T P W) (a : ι × Label F T P W) : Prop :=
  a.2.plain = true ∨ ∃ w, awaiter = some w ∧ a.2 = .pollJoin w

namespace Pc

/-- The call is a poll of the `JoinHandle`. -/
def inJoin : Pc F T P W → Bool
  | .join _ => true
  | _ => false

/-- The waker that a poll of the `JoinHandle` has been called with, unless it is `Ready`. -/
def waker : Pc F T P W → Option W
  | .join (.lock w) | .join (.take w) | .join (.load w) | .join (.store w) => some w
  | .join (.ret (.pending w)) => some w
  | _ => none

/-- The call is a `run` after a poll that was `Pending`. -/
def suspends : Pc F T P W → Bool
  | .run (.putBack _) | .run .load | .run (.cas _) => true
  | _ => false

/-- The call is a `wake_by_ref` that has not taken effect. -/
def wakes : Pc F T P W → Bool
  | .wake .load | .wake (.cas _) => true
  | _ => false

end Pc

/-- The last poll was `Pending`, and the task waits, or is about to. -/
def Suspended (c : TaskConfig ι F T P W) : Prop :=
  c.shared.cell.state = .idle ∨ ∃ i, (c.loc i).suspends = true

/-- The task has completed, or was woken since its last poll began, or is being woken. -/
def Woken (c : TaskConfig ι F T P W) : Prop :=
  c.shared.cell.state = .completed ∨ undelivered c.shared.log = true ∨
    ∃ i, (c.loc i).wakes = true

/-! ## One task -/

section
variable {i : ι} {s s' : Shared ι F T P W} {a : Label F T P W} {pc pc' : Pc F T P W}

/-- What a step without a panic of a destructor adds to the log: nothing that matters to other
tasks, the begin of a poll, the wake of the awaiter, or the return of a poll of the handle. -/
inductive Noted (i : ι) (s : Shared ι F T P W) (pc : Pc F T P W) (s' : Shared ι F T P W)
    (pc' : Pc F T P W) : Prop
  | quiet (hnew : ∀ e, newest s s' = some e → e.matters = false)
      (hlast : lastReturn s'.log = lastReturn s.log)
      (hwoken : ∀ w, WokenSince w s'.log ↔ WokenSince w s.log)
      (hfirst : firstReady s'.log = firstReady s.log)
      (hjoin : pc.inJoin = true → pc'.inJoin = true) (hpoll : pc'.polling = false)
  | began (hpc : pc = .run .take) (hpc' : pc'.polling = true)
      (hlog : s'.log = .pollBegan i :: s.log)
  | woken {w : W} (hpc : pc.inJoin = false) (hpc' : pc' = .idle) (hw : s.cell.joinWaker = some w)
      (hlog : s'.log = .joinWoken w :: s.log)
  | returned {r : JoinPoll T P W} (hpc : pc = .join (.ret r)) (hpc' : pc' = .idle)
      (hlog : s'.log = .joinReturned r :: s.log)

/-- The event that a step adds is the newest. -/
theorem newest_cons {e : Event ι T P W} (h : s'.log = e :: s.log) : newest s s' = some e := by
  simp [newest, h]

/-- A step that leaves the log as it is adds none. -/
theorem newest_same (h : s'.log = s.log) : newest s s' = none := by
  simp [newest, h]

/-- Every step without a panic of a destructor is one of those. -/
theorem CallTrans.noted (h : CallTrans i s pc a s' pc') (ha : a ≠ .unwind) :
    Noted i s pc s' pc' := by
  cases h with
  | take => exact .began rfl rfl rfl
  | completeWakeJoin hw | cancelWakeJoin hw => exact .woken rfl rfl hw rfl
  | joinReturn => exact .returned rfl rfl rfl
  | dropUnwind | runClearUnwind | cancelClearUnwind => exact absurd rfl ha
  | _ =>
    refine .quiet ?_ rfl (fun _ => Iff.rfl) ?_ ?_ ?_ <;>
      simp [newest, Event.matters, firstReady, Pc.inJoin, Pc.polling]

/-- A poll of the handle begins with the call. -/
theorem CallTrans.inJoin (h : CallTrans i s pc a s' pc') (ha : a.plain = true)
    (hpc' : pc'.inJoin = true) : pc.inJoin = true := by
  cases h with
  | joinCall => cases ha
  | joinLock | joinTake | joinTakeEmpty | joinLoadCompleted | joinLoad | joinStore => rfl
  | _ => cases hpc'

/-- A poll of the future goes on until it ends. -/
theorem CallTrans.polling (h : CallTrans i s pc a s' pc') (hpc : pc.polling = true) :
    ∃ fut r, a = .polled fut r := by
  cases h with
  | pollReady | pollPending | pollPanicked => exact ⟨_, _, rfl⟩
  | _ => cases hpc

/-- A poll of the handle is called. -/
theorem CallTrans.joinCall_of_idle {c : TaskConfig ι F T P W} {w : W}
    (hi : c.loc i = .idle) (hb : c.shared.joinBorrowed = false) :
    CallTrans i c.shared (c.loc i) (.pollJoin w) { c.shared with joinBorrowed := true }
      (.join (.lock w)) :=
  hi ▸ .joinCall hb

/-- `wake_by_ref` is called. -/
theorem CallTrans.wakeCall_of_idle {c : TaskConfig ι F T P W} (hi : c.loc i = .idle) :
    CallTrans i c.shared (c.loc i) .wake c.shared (.wake .load) :=
  hi ▸ .wakeCall

/-- Nothing but the end of a `Pending` poll leaves a task suspended. -/
theorem Suspended.of_step [DecidableEq ι] {c : TaskConfig ι F T P W} (hpc : c.loc i = pc)
    (ht : CallTrans i c.shared pc a s' pc') (h : Suspended ⟨s', Function.update c.loc i pc'⟩) :
    Suspended c ∨ ∃ fut, a = .polled fut .pending := by
  unfold Suspended at h ⊢
  simp only [exists_update] at h
  rw [exists_split i, hpc]
  generalize Others Pc.suspends c.loc i = D at h ⊢
  cases ht with
  | pollPending => exact .inr ⟨_, rfl⟩
  | putBack | putBackOver | runLoad | runLoadCompleted | runLoadScheduled | runCas | runCasLost
  | runCasWeak => exact .inl (.inr (.inl rfl))
  | claim | completeSwap | wakeCasRunning | wakeCas | cancelSwap =>
    rcases h with hs | hpc' | hD
    · cases hs
    · cases hpc'
    · exact .inl (.inr (.inr hD))
  | _ => simpa [Pc.suspends] using h

/-- The poll of the `JoinHandle` that is under way borrows it. -/
theorem CallTrans.borrows (h : CallTrans i s pc a s' pc')
    (hb : pc.inJoin = true → s.joinBorrowed = true) :
    (pc'.inJoin = true → s'.joinBorrowed = true ∧ (pc.inJoin = true ∨ s.joinBorrowed = false)) ∧
    (pc.inJoin = false → pc'.inJoin = false → s'.joinBorrowed = s.joinBorrowed) ∧
    (pc.inJoin = true → pc'.inJoin = false → s'.joinBorrowed = false) := by
  cases h with
  | joinCall hfree => exact ⟨fun _ => ⟨rfl, .inr hfree⟩, fun _ => nofun, nofun⟩
  | joinLock | joinTake | joinTakeEmpty | joinLoadCompleted | joinLoad | joinStore =>
    exact ⟨fun _ => ⟨hb rfl, .inl rfl⟩, nofun, fun _ => nofun⟩
  | joinReturn => exact ⟨nofun, nofun, fun _ _ => rfl⟩
  | _ => exact ⟨nofun, fun _ _ => rfl, nofun⟩

/-- A task that is awake stays so until a poll begins. -/
theorem Woken.step [DecidableEq ι] {c : TaskConfig ι F T P W} (h : Woken c) (hcas : pc.CasOk)
    (hpc : c.loc i = pc) (ht : CallTrans i c.shared pc a s' pc') (hpoll : pc'.polling = false) :
    Woken ⟨s', Function.update c.loc i pc'⟩ := by
  have hstays := ht.completed hcas
  unfold Woken at h ⊢
  rw [exists_split i, hpc] at h
  simp only [exists_update]
  generalize Others Pc.wakes c.loc i = D at h ⊢
  cases ht with
  | take => cases hpoll
  | wakeLoadCompleted hs => exact .inl hs
  | wakeLoadScheduled | wakeCas | wakeCasRunning => exact .inr (.inl rfl)
  | wakeCall | wakeLoad | wakeCasLost | wakeCasWeak => exact .inr (.inr (.inl rfl))
  | _ =>
    rcases h with hs | hu | hw | hD
    · exact .inl (hstays hs)
    · exact .inr (.inl hu)
    · cases hw
    · exact .inr (.inr (.inr hD))

end

/-- The wakers in the cell and in the polls of the handle are those of the awaiter, and so is the
one of the last poll. -/
structure AwaiterOnly (awaiter : Option W) (c : TaskConfig ι F T P W) : Prop where
  call : ∀ i w, (c.loc i).waker = some w → awaiter = some w
  registered : ∀ w, c.shared.cell.joinWaker = some w → awaiter = some w
  returned : ∀ w, lastReturn c.shared.log = some (.pending w) → awaiter = some w

section
variable [DecidableEq ι] {fut : F} {awaiter : Option W} {c : TaskConfig ι F T P W}

omit [DecidableEq ι] in
/-- Such a step clones no handle, -/
theorem awaitedBy.ownHandles {a : ι × Label F T P W} (h : awaitedBy awaiter c a) :
    ownHandles c a := by
  rcases h with h | ⟨w, -, h⟩
  · refine ⟨fun ha => ?_, fun ha => ?_⟩ <;> rw [ha] at h <;> cases h
  · refine ⟨fun ha => ?_, fun ha => ?_⟩ <;> rw [ha] at h <;> cases h

omit [DecidableEq ι] in
/-- and lets no panic of a destructor out. -/
theorem awaitedBy.not_unwind {a : ι × Label F T P W} (h : awaitedBy awaiter c a) :
    a.2 ≠ .unwind := by
  rcases h with h | ⟨w, -, h⟩
  · intro ha
    rw [ha] at h
    cases h
  · rw [h]
    simp

variable (h : (taskMachine fut).Reachable (awaitedBy awaiter) c)
include h

/-- The runs of such a task are runs without clones, -/
theorem reachable_ownHandles : (taskMachine fut).Reachable ownHandles c :=
  h.mono fun _ _ h => h.ownHandles

/-- without a panic that matters, -/
theorem reachable_quietUnwind : (taskMachine fut).Reachable quietUnwind c :=
  h.mono fun _ _ h ha => absurd ha h.not_unwind

/-- and of those in which no wake is lost. -/
theorem wakeKept_of_awaitedBy [Fintype ι] : WakeKept c := by
  have hcontained : (taskMachine fut).Reachable containedUnwind c :=
    h.mono fun _ _ h ha => absurd ha h.not_unwind
  exact reachable_wakeKept
    (reachable_noSwallow (reachable_ownHandles h) (reachable_contained hcontained)).1

/-- The wakers are those of the awaiter, in every state reached. -/
theorem reachable_awaiterOnly : AwaiterOnly awaiter c := by
  refine task_invariant (J := fun _ => True) h (fun _ _ => trivial) ⟨nofun, nofun, nofun⟩ ?_
  rintro c i a s' _ pc' - ⟨hcall, hreg, hret⟩ hG rfl ht
  have hnew : ∀ w, pc'.waker = some w → (c.loc i).waker = some w ∨ a = .pollJoin w := by
    intro w hw
    generalize hpc : c.loc i = pc at ht ⊢
    cases ht with
    | joinCall => exact .inr (by rw [Option.some.inj hw])
    | joinLock | joinTakeEmpty | joinLoad | joinStore => exact .inl hw
    | _ => cases hw
  refine ⟨fun j w hw => ?_, fun w hw => ?_, fun w hw => ?_⟩
  · by_cases hji : j = i
    · subst hji
      simp only [Function.update_self] at hw
      rcases hnew w hw with hw | rfl
      · exact hcall j w hw
      · rcases hG with hG | ⟨w', hw', heq⟩
        · cases hG
        · cases heq
          exact hw'
    · simp only [Function.update_of_ne hji] at hw
      exact hcall j w hw
  · generalize hpc : c.loc i = pc at ht
    cases ht with
    | joinStore =>
      cases hw
      exact hcall i _ (by rw [hpc]; rfl)
    | completeWakeJoin | cancelWakeJoin => cases hw
    | _ => exact hreg w hw
  · generalize hpc : c.loc i = pc at ht
    cases ht with
    | @joinReturn r =>
      cases hw
      exact hcall i _ (by rw [hpc]; rfl)
    | _ => exact hret w hw

omit h in
/-- The `JoinHandle` is borrowed by the poll of it that is under way, and there is one at most. -/
theorem reachable_joinBorrowed {G : TaskConfig ι F T P W → ι × Label F T P W → Prop}
    (h : (taskMachine fut).Reachable G c) : Mutex c.shared.joinBorrowed Pc.inJoin c.loc ∧
      (c.shared.joinBorrowed = true → ∃ i, (c.loc i).inJoin = true) := by
  refine task_invariant (I := fun c => Mutex c.shared.joinBorrowed Pc.inJoin c.loc ∧
    (c.shared.joinBorrowed = true → ∃ i, (c.loc i).inJoin = true)) (J := fun _ => True) h
    (fun _ _ => trivial) ⟨.free fun _ => rfl, nofun⟩ ?_
  rintro c i a s' _ pc' - ⟨hmutex, hheld⟩ - rfl ht
  obtain ⟨hold, keep, free⟩ := ht.borrows fun hi => hmutex.locked_of_holds hi
  exact ⟨hmutex.step hold keep, held_step hheld free keep⟩

end

end Hypertile
