import Hypertile.Park.Steps
import Hypertile.Park.Wakeup

/-!
# Stopping a runtime

The model of `core.shutdown()`, `Runtime::request_shutdown`, `Runtime::shutdown` and
`shutdown_with_timeout` with the threads that they stop: the workers of `start_workers`, which
register, run `WorkerHandle::run_loop` until they find the core stopped, and drop their guard; and
any number of other threads, which inject tasks and stop the runtime. A task that a worker runs can
stop the runtime too. Where a worker looks for tasks, marks itself and parks, it takes the steps of
the parking model; here it also leaves the loop, and the park may end after 5 ms without a token.

The lock of `workers` is held by `unpark_all` while it goes through them and by `deregister`, which
takes that of `idle_stack` under it. The two sections of `get` and `unpark` in `unpark_one_idle` are
steps of their own, as in the parking model. A worker thread registers once, so that it finds its
own deque when it drops its guard. The timer is left out, and so are threads that register
themselves: the `run_one` and `run_until_idle` of a `RegisteredWorker` do not look at `running`.
-/

namespace Hypertile

/-- The functions that stop a runtime. -/
inductive StopKind where
  | requestShutdown
  | shutdown
  | shutdownWithTimeout
  deriving DecidableEq

/-- What an observer of the threads that stop a runtime sees, with the thread that does it. -/
inductive StopEvent (ι ω : Type) where
  /-- `shutdown` joined a worker thread. -/
  | joined (caller : ι) (worker : ω)
  /-- `shutdown` returned, having taken these handles. -/
  | shutdownReturned (caller : ι) (taken : List ω)
  /-- `shutdown_with_timeout` returned this number of workers. -/
  | timeoutReturned (caller : ι) (alive : ℕ)
  deriving DecidableEq

/-- What all threads share, for workers `ω`, other threads `π` and task handles `H`. -/
structure Stopping (ω π H : Type) where
  park : Parking ω H
  running : Bool
  /-- The lock of `workers` is held for writing. -/
  writing : Bool
  /-- How many hold it for reading. -/
  readers : ℕ
  /-- The handles of `worker_threads` that no call of `shutdown` has taken. -/
  workerThreads : List ω
  /-- The worker threads that have ended. -/
  ended : ω → Bool
  log : List (StopEvent (ω ⊕ π) ω)

/-- Where a call that stops the runtime stands. -/
inductive StopCallPc (ω : Type) where
  /-- `set_running(false)`: about to store, to take the lock of `workers`, and to unpark the rest of
  them and give up the lock. -/
  | store (kind : StopKind)
  | unparkAll (kind : StopKind)
  | unparkEach (kind : StopKind) (rest : List ω)
  /-- `Runtime::shutdown`: about to take the handles, and to join the rest of them. -/
  | takeThreads
  | join (rest taken : List ω)
  /-- `shutdown_with_timeout`: at the head of its loop, and about to count the workers. -/
  | wait
  | count
  deriving DecidableEq

/-- Where a thread stands when it is in no call that stops the runtime. -/
inductive StopPc (ω H : Type) where
  /-- In `WorkerHandle::new` or `run_loop`, with the ticks of its `find_task`. -/
  | loop (tick : ℕ) (pc : LoopPc ω H)
  /-- `WorkerGuard::drop`: about to remove the entry, to take the worker off the idle stack, and to
  count. -/
  | deregister
  | deregisterIdle
  | deregisterCount (removed : ℕ)
  /-- About to pop a task of the worker's deque, and in the `inject` of it. -/
  | flush
  | inject (pc : ProducerPc ω H)
  | unparkOneIdle (pc : ProducerPc ω H)
  | ended
  /-- No worker. -/
  | producer (pc : ProducerPc ω H)
  deriving DecidableEq

/-- A thread, with the call that it is in. -/
structure StopThread (ω H : Type) where
  pc : StopPc ω H
  call : Option (StopCallPc ω)
  deriving DecidableEq

/-- What is chosen for a thread. -/
inductive StopLabel (H : Type) where
  | park (a : ParkLabel H)
  /-- The thread, or the task that it runs, calls one of the functions. -/
  | call (kind : StopKind)
  /-- The deadline of `shutdown_with_timeout` has passed. -/
  | deadline
  /-- The park ends without a token. -/
  | timeout
  deriving DecidableEq

namespace Stopping

variable {ω π H : Type}

/-- Adds an event to the log. -/
def emit (s : Stopping ω π H) (e : StopEvent (ω ⊕ π) ω) : Stopping ω π H :=
  { s with log := e :: s.log }

variable [DecidableEq ω]

/-- `entry.unparker.unpark()`. -/
def unpark (s : Stopping ω π H) (w : ω) : Stopping ω π H :=
  { s with park.token := Function.update s.park.token w true }

/-- A step of `inject` or `unpark_one_idle`, whose lookup takes the lock of `workers`. -/
def producerStep (s : Stopping ω π H) (pc : ProducerPc ω H) (a : ParkLabel H) :
    Option (Stopping ω π H × ProducerPc ω H) :=
  match pc, s.writing with
  | .lookup _, true => none
  | pc, _ => (Hypertile.producerStep s.park pc a).map fun r => ({ s with park := r.1 }, r.2)

/-- `workers.remove(&id)` under the lock. -/
def removeWorker (s : Stopping ω π H) (w : ω) : Stopping ω π H :=
  { s with park.workers := s.park.workers.filter (· ≠ w), writing := true }

end Stopping

/-- Where a call goes on when `set_running` has returned. -/
def StopKind.next {ω : Type} : StopKind → Option (StopCallPc ω)
  | .requestShutdown => none
  | .shutdown => some .takeThreads
  | .shutdownWithTimeout => some .wait

/-- A thread at this place runs code that can stop the runtime: a task, or code of its own. -/
def StopPc.mayCall {ω H : Type} : StopPc ω H → Bool
  | .loop _ (.run _ _) | .producer .idle => true
  | _ => false

section
variable {ω π H : Type} [DecidableEq ω] [DecidableEq π]

/-- One step of a call made by thread `i`; `none` in the second place when it returns. -/
def stopCallStep (i : ω ⊕ π) (s : Stopping ω π H) :
    StopCallPc ω → StopLabel H → Option (Stopping ω π H × Option (StopCallPc ω))
  | .store kind, .park .go => some ({ s with running := false }, some (.unparkAll kind))
  | .unparkAll kind, .park .go =>
    if s.writing then none
    else some ({ s with readers := s.readers + 1 }, some (.unparkEach kind s.park.workers))
  | .unparkEach kind (w :: rest), .park .go => some (s.unpark w, some (.unparkEach kind rest))
  | .unparkEach kind [], .park .go => some ({ s with readers := s.readers - 1 }, kind.next)
  | .takeThreads, .park .go =>
    -- the caller's own handle is dropped, which detaches its thread
    some ({ s with workerThreads := [] },
      some (.join (s.workerThreads.filter fun w => .inl w ≠ i) s.workerThreads))
  | .join (w :: rest) taken, .park .go =>
    if s.ended w then some (s.emit (.joined i w), some (.join rest taken)) else none
  | .join [] taken, .park .go => some (s.emit (.shutdownReturned i taken), none)
  | .wait, .park .go => if s.writing ∨ s.park.workers ≠ [] then none else some (s, some .count)
  | .wait, .deadline => some (s, some .count)
  | .count, .park .go =>
    if s.writing then none else some (s.emit (.timeoutReturned i s.park.workers.length), none)
  | _, _ => none

/-- One step of a worker that is in no call. -/
def stopWorkerStep (w : ω) (s : Stopping ω π H) :
    StopPc ω H → StopLabel H → Option (Stopping ω π H × StopPc ω H)
  | .loop n .top, .park .go => some (s,
    if s.running then
      .loop (n + 1) (.find (if n % 64 = 0 then .injectorFirst else .localDeque))
    else .deregister)
  | .loop n .register, .park .go =>
    if s.writing ∨ 0 < s.readers then none
    else some ({ s with park.workers := w :: s.park.workers }, .loop n .top)
  | .loop n .park, .timeout => some (s, .loop n (.unmark none))
  | .loop n pc, .park a =>
    (loopStep s.park w pc a).map fun r => ({ s with park := r.1 }, .loop n r.2)
  | .deregister, .park .go =>
    if s.writing ∨ 0 < s.readers then none else some (s.removeWorker w, .deregisterIdle)
  | .deregisterIdle, .park .go =>
    if s.park.locked then none
    else
      let idle := s.park.idleStack.filter (· ≠ w)
      some ({ s with park.idleStack := idle, park.locked := true },
        .deregisterCount (s.park.idleStack.length - idle.length))
  | .deregisterCount removed, .park .go =>
    some ({ s with
      park.idleCount := s.park.idleCount - removed
      park.locked := false
      writing := false }, .flush)
  | .flush, .park .go => some (match s.park.deque w with
    | [] => (s, .unparkOneIdle .load)
    | task :: rest => ({ s with park := s.park.setDeque w rest }, .inject (.push task)))
  | .inject pc, .park .go => (s.producerStep pc .go).map fun
    | (s', .idle) => (s', .flush)
    | (s', pc') => (s', .inject pc')
  | .unparkOneIdle pc, .park .go => (s.producerStep pc .go).map fun
    | (s', .idle) => ({ s' with ended := Function.update s'.ended w true }, .ended)
    | (s', pc') => (s', .unparkOneIdle pc')
  | _, _ => none

/-- One step of a thread that is in no call. -/
def stopOwnStep : ω ⊕ π → Stopping ω π H → StopPc ω H → StopLabel H →
    Option (Stopping ω π H × StopPc ω H)
  | .inl w, s, pc, a => stopWorkerStep w s pc a
  | .inr _, s, .producer pc, .park a => (s.producerStep pc a).map fun r => (r.1, .producer r.2)
  | _, _, _, _ => none

/-- One step of a thread. -/
def stopStep (i : ω ⊕ π) (s : Stopping ω π H) (t : StopThread ω H) (a : StopLabel H) :
    Option (Stopping ω π H × StopThread ω H) :=
  match t.call, a with
  | some pc, a => (stopCallStep i s pc a).map fun r => (r.1, ⟨t.pc, r.2⟩)
  | none, .call kind => if t.pc.mayCall then some (s, ⟨t.pc, some (.store kind)⟩) else none
  | none, a => (stopOwnStep i s t.pc a).map fun r => (r.1, ⟨r.2, none⟩)

/-- A core that runs, with these handles of worker threads. -/
def Stopping.new (pool : List ω) : Stopping ω π H where
  park := .new
  running := true
  writing := false
  readers := 0
  workerThreads := pool
  ended _ := false
  log := []

/-- The configurations of a runtime that is stopped. -/
abbrev StopConfig (ω π H : Type) := Machine.Config (Stopping ω π H) (StopThread ω H) (ω ⊕ π)

/-- All interleavings of the workers `ω`, of which `pool` are those that the runtime has started,
and the other threads `π`. -/
def stopMachine (pool : List ω) : Machine (StopConfig ω π H) ((ω ⊕ π) × StopLabel H) :=
  Machine.threads stopStep ⟨.new pool, fun i =>
    ⟨i.elim (fun _ => .loop 0 .register) fun _ => .producer .idle, none⟩⟩

end

/-! ## What a step does -/

section
variable {ω π H : Type} [DecidableEq ω] [DecidableEq π]

/-- `StopCallTrans i s pc a s' r`: the call of thread `i` at `pc` can take the step `a` from `s`, to
`s'` and to `r`, if it has not returned. -/
inductive StopCallTrans (i : ω ⊕ π) (s : Stopping ω π H) :
    StopCallPc ω → StopLabel H → Stopping ω π H → Option (StopCallPc ω) → Prop
  | store {kind : StopKind} :
      StopCallTrans i s (.store kind) (.park .go) { s with running := false }
        (some (.unparkAll kind))
  | unparkAll {kind : StopKind} (hfree : s.writing = false) :
      StopCallTrans i s (.unparkAll kind) (.park .go) { s with readers := s.readers + 1 }
        (some (.unparkEach kind s.park.workers))
  | unpark {kind : StopKind} {w : ω} {rest : List ω} :
      StopCallTrans i s (.unparkEach kind (w :: rest)) (.park .go) (s.unpark w)
        (some (.unparkEach kind rest))
  | unparked {kind : StopKind} :
      StopCallTrans i s (.unparkEach kind []) (.park .go) { s with readers := s.readers - 1 }
        kind.next
  | takeThreads :
      StopCallTrans i s .takeThreads (.park .go) { s with workerThreads := [] }
        (some (.join (s.workerThreads.filter fun w => .inl w ≠ i) s.workerThreads))
  | join {w : ω} {rest taken : List ω} (hended : s.ended w = true) :
      StopCallTrans i s (.join (w :: rest) taken) (.park .go) (s.emit (.joined i w))
        (some (.join rest taken))
  | joined {taken : List ω} :
      StopCallTrans i s (.join [] taken) (.park .go) (s.emit (.shutdownReturned i taken)) none
  | noneAlive (hnone : s.park.workers = []) :
      StopCallTrans i s .wait (.park .go) s (some .count)
  | deadline : StopCallTrans i s .wait .deadline s (some .count)
  | count (hfree : s.writing = false) :
      StopCallTrans i s .count (.park .go)
        (s.emit (.timeoutReturned i s.park.workers.length)) none

/-- Every step of a call is one of the steps. -/
theorem stopCallStep_trans {i : ω ⊕ π} {s s' : Stopping ω π H} {pc : StopCallPc ω}
    {a : StopLabel H} {r : Option (StopCallPc ω)} (h : stopCallStep i s pc a = some (s', r)) :
    StopCallTrans i s pc a s' r := by
  unfold stopCallStep at h
  split at h
  · cases h; exact .store
  · split at h
    · cases h
    · next hfree => cases h; exact .unparkAll (Bool.eq_false_iff.2 hfree)
  · cases h; exact .unpark
  · cases h; exact .unparked
  · cases h; exact .takeThreads
  · split at h
    · next hended => cases h; exact .join hended
    · cases h
  · cases h; exact .joined
  · split at h
    · cases h
    · next hno =>
      cases h
      exact .noneAlive (by_contra fun hne => hno (.inr hne))
  · cases h; exact .deadline
  · split at h
    · cases h
    · next hfree => cases h; exact .count (Bool.eq_false_iff.2 hfree)
  · cases h

/-- `StopOwnTrans i s pc a s' pc'`: thread `i` at `pc` and in no call can take the step `a` from
`s`, to `s'` and `pc'`. -/
inductive StopOwnTrans (s : Stopping ω π H) :
    ω ⊕ π → StopPc ω H → StopLabel H → Stopping ω π H → StopPc ω H → Prop
  | head {w : ω} {n : ℕ} {fpc : FindPc ω} (hrun : s.running = true) :
      StopOwnTrans s (.inl w) (.loop n .top) (.park .go) s (.loop (n + 1) (.find fpc))
  | leave {w : ω} {n : ℕ} (hrun : s.running = false) :
      StopOwnTrans s (.inl w) (.loop n .top) (.park .go) s .deregister
  | register {w : ω} {n : ℕ} (hfree : s.writing = false) (hread : s.readers = 0) :
      StopOwnTrans s (.inl w) (.loop n .register) (.park .go)
        { s with park.workers := w :: s.park.workers } (.loop n .top)
  | timeout {w : ω} {n : ℕ} :
      StopOwnTrans s (.inl w) (.loop n .park) .timeout s (.loop n (.unmark none))
  | loop {w : ω} {n : ℕ} {pc pc' : LoopPc ω H} {a : ParkLabel H} {q : Parking ω H}
      (hst : loopStep s.park w pc a = some (q, pc')) (hpc : pc ≠ .register) :
      StopOwnTrans s (.inl w) (.loop n pc) (.park a) { s with park := q } (.loop n pc')
  | deregister {w : ω} (hfree : s.writing = false) (hread : s.readers = 0) :
      StopOwnTrans s (.inl w) .deregister (.park .go) (s.removeWorker w) .deregisterIdle
  | deregisterIdle {w : ω} {removed : ℕ} (hfree : s.park.locked = false) :
      StopOwnTrans s (.inl w) .deregisterIdle (.park .go)
        { s with park.idleStack := s.park.idleStack.filter (· ≠ w), park.locked := true }
        (.deregisterCount removed)
  | deregisterCount {w : ω} {removed : ℕ} :
      StopOwnTrans s (.inl w) (.deregisterCount removed) (.park .go)
        { s with
          park.idleCount := s.park.idleCount - removed
          park.locked := false
          writing := false } .flush
  | flushed {w : ω} (hnil : s.park.deque w = []) :
      StopOwnTrans s (.inl w) .flush (.park .go) s (.unparkOneIdle .load)
  | flush {w : ω} {task : H} {rest : List H} (hdeque : s.park.deque w = task :: rest) :
      StopOwnTrans s (.inl w) .flush (.park .go) { s with park := s.park.setDeque w rest }
        (.inject (.push task))
  | inject {w : ω} {pc pc' : ProducerPc ω H} {s' : Stopping ω π H}
      (hst : s.producerStep pc .go = some (s', pc')) (hpc : pc' ≠ .idle) :
      StopOwnTrans s (.inl w) (.inject pc) (.park .go) s' (.inject pc')
  | injected {w : ω} {pc : ProducerPc ω H} {s' : Stopping ω π H}
      (hst : s.producerStep pc .go = some (s', .idle)) :
      StopOwnTrans s (.inl w) (.inject pc) (.park .go) s' .flush
  | unparkOneIdle {w : ω} {pc pc' : ProducerPc ω H} {s' : Stopping ω π H}
      (hst : s.producerStep pc .go = some (s', pc')) (hpc : pc' ≠ .idle) :
      StopOwnTrans s (.inl w) (.unparkOneIdle pc) (.park .go) s' (.unparkOneIdle pc')
  | ended {w : ω} {pc : ProducerPc ω H} {s' : Stopping ω π H}
      (hst : s.producerStep pc .go = some (s', .idle)) :
      StopOwnTrans s (.inl w) (.unparkOneIdle pc) (.park .go)
        { s' with ended := Function.update s'.ended w true } .ended
  | producer {i : π} {pc pc' : ProducerPc ω H} {a : ParkLabel H} {s' : Stopping ω π H}
      (hst : s.producerStep pc a = some (s', pc')) :
      StopOwnTrans s (.inr i) (.producer pc) (.park a) s' (.producer pc')

omit [DecidableEq π] in
/-- Every step of a worker in no call is one of the steps. -/
theorem stopWorkerStep_trans {w : ω} {s s' : Stopping ω π H} {pc pc' : StopPc ω H}
    {a : StopLabel H} (h : stopWorkerStep w s pc a = some (s', pc')) :
    StopOwnTrans s (.inl w) pc a s' pc' := by
  unfold stopWorkerStep at h
  split at h
  · cases h
    split
    · next hrun => exact .head hrun
    · next hrun => exact .leave (Bool.eq_false_iff.2 hrun)
  · split at h
    · cases h
    · next hfree =>
      cases h
      rw [not_or, Bool.not_eq_true, Nat.not_lt, Nat.le_zero] at hfree
      exact .register hfree.1 hfree.2
  · cases h; exact .timeout
  · next n pc₀ a₀ _ hreg =>
    obtain ⟨⟨q, pc₁⟩, hst, he⟩ := Option.map_eq_some_iff.1 h
    cases he
    refine .loop hst ?_
    rintro rfl
    cases a₀ with
    | go => exact hreg rfl rfl
    | _ => cases hst
  · split at h
    · cases h
    · next hfree =>
      cases h
      rw [not_or, Bool.not_eq_true, Nat.not_lt, Nat.le_zero] at hfree
      exact .deregister hfree.1 hfree.2
  · split at h
    · cases h
    · next hfree => cases h; exact .deregisterIdle (Bool.eq_false_iff.2 hfree)
  · cases h; exact .deregisterCount
  · split at h
    · next hnil => cases h; exact .flushed hnil
    · next hdeque => cases h; exact .flush hdeque
  · obtain ⟨⟨q, pc₁⟩, hst, he⟩ := Option.map_eq_some_iff.1 h
    cases pc₁ with
    | idle => cases he; exact .injected hst
    | _ => cases he; exact .inject hst (by simp)
  · obtain ⟨⟨q, pc₁⟩, hst, he⟩ := Option.map_eq_some_iff.1 h
    cases pc₁ with
    | idle => cases he; exact .ended hst
    | _ => cases he; exact .unparkOneIdle hst (by simp)
  · cases h

omit [DecidableEq π] in
/-- Every step of a thread in no call is one of the steps. -/
theorem stopOwnStep_trans {i : ω ⊕ π} {s s' : Stopping ω π H} {pc pc' : StopPc ω H}
    {a : StopLabel H} (h : stopOwnStep i s pc a = some (s', pc')) :
    StopOwnTrans s i pc a s' pc' := by
  unfold stopOwnStep at h
  split at h
  · exact stopWorkerStep_trans h
  · obtain ⟨⟨q, pc₁⟩, hst, he⟩ := Option.map_eq_some_iff.1 h
    cases he
    exact .producer hst
  · cases h

/-- `StopTrans i s t a s' t'`: thread `i` at `t` can take the step `a` from `s`, to `s'` and `t'`.
-/
inductive StopTrans (i : ω ⊕ π) (s : Stopping ω π H) :
    StopThread ω H → StopLabel H → Stopping ω π H → StopThread ω H → Prop
  | begin {pc : StopPc ω H} {kind : StopKind} (hmay : pc.mayCall = true) :
      StopTrans i s ⟨pc, none⟩ (.call kind) s ⟨pc, some (.store kind)⟩
  | call {pc : StopPc ω H} {call : StopCallPc ω} {call' : Option (StopCallPc ω)} {a : StopLabel H}
      {s' : Stopping ω π H} (h : StopCallTrans i s call a s' call') :
      StopTrans i s ⟨pc, some call⟩ a s' ⟨pc, call'⟩
  | own {pc pc' : StopPc ω H} {a : StopLabel H} {s' : Stopping ω π H}
      (h : StopOwnTrans s i pc a s' pc') : StopTrans i s ⟨pc, none⟩ a s' ⟨pc', none⟩

/-- Every step of a thread is one of the steps. -/
theorem stopStep_trans {i : ω ⊕ π} {s s' : Stopping ω π H} {t t' : StopThread ω H}
    {a : StopLabel H} (h : stopStep i s t a = some (s', t')) : StopTrans i s t a s' t' := by
  obtain ⟨pc, call⟩ := t
  unfold stopStep at h
  split at h
  · next hcall =>
    obtain ⟨⟨q, r⟩, hst, he⟩ := Option.map_eq_some_iff.1 h
    cases hcall
    cases he
    exact .call (stopCallStep_trans hst)
  · next hcall =>
    cases hcall
    split at h
    · next hmay => cases h; exact .begin hmay
    · cases h
  · next hcall _ =>
    obtain ⟨⟨q, pc'⟩, hst, he⟩ := Option.map_eq_some_iff.1 h
    cases hcall
    cases he
    exact .own (stopOwnStep_trans hst)

end

end Hypertile
