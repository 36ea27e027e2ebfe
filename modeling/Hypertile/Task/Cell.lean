import Hypertile.Machine.Threads

/-!
# The task cell

The model of `hypertile-core/src/task.rs`: one `TaskCell` with its `JoinHandle`, and any number of
calls of `run`, `wake_by_ref`, `cancel` and `JoinHandle::poll` on it. Each call is a thread of a
`Machine.threads`; its local state `Pc` says where in its function it stands, and one step of it is
one atomic load, swap or compare-exchange of the state byte, one lock section of `future` or
`join_waker`, or one operation on the result lock, which `complete` and `poll` hold across other
steps. A call made from inside a poll is a thread of its own that happens to move while the poll is
under way.

What the code does not decide is chosen by the action: the outcome of a poll and the future it
leaves behind, a spurious failure of a weak compare-exchange (`weakFail`), a destructor that panics
(`unwind`), and which thread moves. The queues are counted, since the handles of one task are
indistinguishable; `log` records, newest first, what an observer of the run sees.
-/

namespace Hypertile

/-- The state flags of a task cell: `STATE_IDLE`, `STATE_SCHEDULED`, `STATE_RUNNING` and
`STATE_COMPLETED`. -/
inductive TaskState where
  | idle | scheduled | running | completed
  deriving DecidableEq, Repr

/-- The error a `JoinHandle` is awaited with; `P` is the type of panic payloads. -/
inductive JoinError (P : Type) where
  | panicked (payload : P)
  | cancelled
  deriving DecidableEq, Repr

/-- The fields of a task cell. `F` is the type of futures, `T` of their output, `W` of wakers. -/
structure TaskCell (F T P W : Type) where
  future : Option F
  result : Option (Except (JoinError P) T)
  joinWaker : Option W
  state : TaskState
  deriving DecidableEq

/-- What `catch_unwind` of a poll gives. -/
inductive PollResult (T P : Type) where
  | ready (output : T)
  | pending
  | panicked (payload : P)
  deriving DecidableEq, Repr

/-- What `JoinHandle::poll` returns, with the waker that it stored when pending. -/
inductive JoinPoll (T P W : Type) where
  | ready (output : Except (JoinError P) T)
  | pending (waker : W)
  deriving DecidableEq

/-- What an observer of one task sees, with the call that does it. -/
inductive Event (ι T P W : Type) where
  /-- A wake saw `SCHEDULED` or moved the state there. -/
  | wakeTookEffect (call : ι)
  /-- A handle was pushed by `wake_by_ref` or by the re-queue of `run`. -/
  | enqueued (call : ι)
  | pollBegan (call : ι)
  | pollEnded (call : ι) (result : PollResult T P)
  /-- The future's destructor was run. -/
  | futureDropped (call : ι)
  /-- `complete` was first to move the state to `COMPLETED`. -/
  | completeWon (call : ι) (outcome : Except (JoinError P) T)
  /-- `cancel` was first to move the state to `COMPLETED`. -/
  | cancelWon (call : ι)
  | resultWritten (call : ι) (outcome : Except (JoinError P) T)
  | joinWoken (waker : W)
  | joinReturned (result : JoinPoll T P W)
  /-- A panic of the future's destructor left `run`. -/
  | runUnwound (call : ι)
  /-- A panic of the future's destructor left `cancel`. -/
  | cancelUnwound (call : ι)
  deriving DecidableEq

/-- What the calls on one task share: the cell, the number of queued handles, whether the result
lock is held, whether the `JoinHandle` is mutably borrowed by a poll of it, and the log. -/
structure Shared (ι F T P W : Type) where
  cell : TaskCell F T P W
  queued : Nat
  resultLock : Bool
  joinBorrowed : Bool
  log : List (Event ι T P W)

/-- Where a call of `complete` stands. -/
inductive CompletePc (T P : Type) where
  | lock (outcome : Except (JoinError P) T)
  | swap (outcome : Except (JoinError P) T)
  | publish (outcome : Except (JoinError P) T)
  | unlock
  | wakeJoin
  /-- The state was `COMPLETED` already: the guard is dropped at the end of the function. -/
  | lost
  deriving DecidableEq

/-- Where a call of `run` stands. -/
inductive RunPc (F T P : Type) where
  | claim
  | take
  | poll (fut : F)
  | putBack (fut : F)
  | load
  | cas (curr : TaskState)
  | clear
  | requeue
  /-- `drop(fut)`, with the outcome that `complete` is called with afterwards. -/
  | drop (fut : F) (outcome : Except (JoinError P) T)
  | complete (pc : CompletePc T P)
  deriving DecidableEq

/-- Where a call of `wake_by_ref` stands: in the loop of `mark_scheduled`, or about to enqueue. -/
inductive WakePc where
  | load
  | cas (curr : TaskState)
  | enqueue
  deriving DecidableEq

/-- Where a call of `JoinHandle::cancel` stands. -/
inductive CancelPc where
  | swap | clear | publish | wakeJoin
  deriving DecidableEq

/-- Where a call of `JoinHandle::poll` stands. -/
inductive JoinPc (T P W : Type) where
  | lock (waker : W)
  | take (waker : W)
  | load (waker : W)
  | store (waker : W)
  | ret (result : JoinPoll T P W)
  deriving DecidableEq

/-- Where a call stands; `idle` before it is made and after it returned. -/
inductive Pc (F T P W : Type) where
  | idle
  | run (pc : RunPc F T P)
  | wake (pc : WakePc)
  | cancel (pc : CancelPc)
  | join (pc : JoinPc T P W)
  deriving DecidableEq

/-- What is chosen for a call: the function that is called, or the next step of the call under
way. -/
inductive Label (F T P W : Type) where
  /-- A worker pops a queued handle and runs it. -/
  | runQueued
  /-- A caller runs a clone of the handle. -/
  | runClone
  /-- A caller injects a clone of the handle. -/
  | injectClone
  | wake
  | cancel
  | pollJoin (waker : W)
  | go
  /-- The weak compare-exchange fails spuriously. -/
  | weakFail
  /-- The poll ends: it leaves the future `fut` behind and has this result. -/
  | polled (fut : F) (result : PollResult T P)
  /-- The destructor that this step runs panics. -/
  | unwind
  deriving DecidableEq

variable {ι F T P W : Type}

namespace Shared

/-- Adds an event to the log. -/
def emit (s : Shared ι F T P W) (e : Event ι T P W) : Shared ι F T P W :=
  { s with log := e :: s.log }

/-- `*self.future.lock() = new`: the value that was in the slot is dropped. -/
def assignFuture (s : Shared ι F T P W) (i : ι) (new : Option F) : Shared ι F T P W :=
  match s.cell.future with
  | some _ => { s with cell.future := new }.emit (.futureDropped i)
  | none => { s with cell.future := new }

/-- `if let Some(w) = self.join_waker.lock().take() { w.wake() }`. -/
def wakeJoin (s : Shared ι F T P W) : Shared ι F T P W :=
  match s.cell.joinWaker with
  | some w => { s with cell.joinWaker := none }.emit (.joinWoken w)
  | none => s

end Shared

/-- `TaskCell::complete`; `none` in the second place when it returns. -/
def TaskCell.completeStep (i : ι) (s : Shared ι F T P W) :
    CompletePc T P → Option (Shared ι F T P W × Option (CompletePc T P))
  | .lock outcome =>
    if s.resultLock then none else some ({ s with resultLock := true }, some (.swap outcome))
  | .swap outcome =>
    if s.cell.state = .completed then some (s, some .lost)
    else
      some ({ s with cell.state := .completed }.emit (.completeWon i outcome),
        some (.publish outcome))
  | .publish outcome =>
    some ({ s with cell.result := some outcome }.emit (.resultWritten i outcome), some .unlock)
  | .unlock => some ({ s with resultLock := false }, some .wakeJoin)
  | .wakeJoin => some (s.wakeJoin, none)
  | .lost => some ({ s with resultLock := false }, none)

/-- `TaskCell::run`; `none` in the second place when it returns or is left by a panic. -/
def TaskCell.runStep (i : ι) (s : Shared ι F T P W) :
    RunPc F T P → Label F T P W → Option (Shared ι F T P W × Option (RunPc F T P))
  | .claim, .go =>
    if s.cell.state = .scheduled then some ({ s with cell.state := .running }, some .take)
    else some (s, none)
  | .take, .go =>
    match s.cell.future with
    | some fut => some ({ s with cell.future := none }.emit (.pollBegan i), some (.poll fut))
    | none => some (s, none)
  | .poll _, .polled fut r =>
    some (s.emit (.pollEnded i r), some (match r with
      | .ready output => .drop fut (.ok output)
      | .pending => .putBack fut
      | .panicked payload => .drop fut (.error (.panicked payload))))
  | .putBack fut, .go => some (s.assignFuture i (some fut), some .load)
  | .load, .go =>
    match s.cell.state with
    | .completed => some (s, some .clear)
    | .scheduled => some (s, some .requeue)
    | curr => some (s, some (.cas curr))
  | .cas curr, .go =>
    if s.cell.state = curr then some ({ s with cell.state := .idle }, none)
    else some (s, some .load)
  | .cas _, .weakFail => some (s, some .load)
  | .clear, .go => some (s.assignFuture i none, none)
  | .clear, .unwind =>
    if s.cell.future.isSome then some ((s.assignFuture i none).emit (.runUnwound i), none)
    else none
  | .requeue, .go => some ({ s with queued := s.queued + 1 }.emit (.enqueued i), none)
  | .drop _ outcome, .go => some (s.emit (.futureDropped i), some (.complete (.lock outcome)))
  | .drop _ _, .unwind => some ((s.emit (.futureDropped i)).emit (.runUnwound i), none)
  | .complete pc, .go =>
    (TaskCell.completeStep i s pc).map fun r => (r.1, r.2.map .complete)
  | _, _ => none

/-- `TaskCell::wake_by_ref` with the loop of `mark_scheduled`. -/
def TaskCell.wakeByRefStep (i : ι) (s : Shared ι F T P W) :
    WakePc → Label F T P W → Option (Shared ι F T P W × Option WakePc)
  | .load, .go =>
    match s.cell.state with
    | .completed => some (s, none)
    | .scheduled => some (s.emit (.wakeTookEffect i), none)
    | curr => some (s, some (.cas curr))
  | .cas curr, .go =>
    if s.cell.state = curr then
      some ({ s with cell.state := .scheduled }.emit (.wakeTookEffect i),
        if curr = .running then none else some .enqueue)
    else some (s, some .load)
  | .cas _, .weakFail => some (s, some .load)
  | .enqueue, .go => some ({ s with queued := s.queued + 1 }.emit (.enqueued i), none)
  | _, _ => none

/-- `JoinHandle::cancel`. -/
def JoinHandle.cancelStep (i : ι) (s : Shared ι F T P W) :
    CancelPc → Label F T P W → Option (Shared ι F T P W × Option CancelPc)
  | .swap, .go =>
    if s.cell.state = .completed then some (s, none)
    else some ({ s with cell.state := .completed }.emit (.cancelWon i), some .clear)
  | .clear, .go => some (s.assignFuture i none, some .publish)
  | .clear, .unwind =>
    if s.cell.future.isSome then some ((s.assignFuture i none).emit (.cancelUnwound i), none)
    else none
  | .publish, .go =>
    if s.resultLock then none
    else some ({ s with cell.result := some (.error .cancelled) }.emit
      (.resultWritten i (.error .cancelled)), some .wakeJoin)
  | .wakeJoin, .go => some (s.wakeJoin, none)
  | _, _ => none

/-- `JoinHandle::poll`. The guard `res` is held from `lock` to `ret`. -/
def JoinHandle.pollStep (s : Shared ι F T P W) :
    JoinPc T P W → Option (Shared ι F T P W × Option (JoinPc T P W))
  | .lock w => if s.resultLock then none else some ({ s with resultLock := true }, some (.take w))
  | .take w =>
    match s.cell.result with
    | some output => some ({ s with cell.result := none }, some (.ret (.ready output)))
    | none => some (s, some (.load w))
  | .load w =>
    if s.cell.state = .completed then some (s, some (.ret (.ready (.error .cancelled))))
    else some (s, some (.store w))
  | .store w => some ({ s with cell.joinWaker := some w }, some (.ret (.pending w)))
  | .ret r =>
    some ({ s with resultLock := false, joinBorrowed := false }.emit (.joinReturned r), none)

/-- A call that is made. Only a queued handle can be popped, and only one poll of the `JoinHandle`
can be under way, since it borrows the handle mutably. -/
def startCall (s : Shared ι F T P W) : Label F T P W → Option (Shared ι F T P W × Pc F T P W)
  | .runQueued =>
    if 0 < s.queued then some ({ s with queued := s.queued - 1 }, .run .claim) else none
  | .runClone => some (s, .run .claim)
  | .injectClone => some ({ s with queued := s.queued + 1 }, .idle)
  | .wake => some (s, .wake .load)
  | .cancel => some (s, .cancel .swap)
  | .pollJoin w =>
    if s.joinBorrowed then none else some ({ s with joinBorrowed := true }, .join (.lock w))
  | _ => none

/-- One step of the call `i`. -/
def callStep (i : ι) (s : Shared ι F T P W) (pc : Pc F T P W) (a : Label F T P W) :
    Option (Shared ι F T P W × Pc F T P W) :=
  match pc with
  | .idle => startCall s a
  | .run pc => (TaskCell.runStep i s pc a).map fun r => (r.1, r.2.elim .idle .run)
  | .wake pc => (TaskCell.wakeByRefStep i s pc a).map fun r => (r.1, r.2.elim .idle .wake)
  | .cancel pc => (JoinHandle.cancelStep i s pc a).map fun r => (r.1, r.2.elim .idle .cancel)
  | .join pc =>
    match a with
    | .go => (JoinHandle.pollStep s pc).map fun r => (r.1, r.2.elim .idle .join)
    | _ => none

/-- `TaskCell::new` with the one handle of the task queued. -/
def Shared.new (fut : F) : Shared ι F T P W where
  cell := ⟨some fut, none, none, .scheduled⟩
  queued := 1
  resultLock := false
  joinBorrowed := false
  log := []

variable [DecidableEq ι]

/-- The configurations of one task: what the calls share and where each stands. -/
abbrev TaskConfig (ι F T P W : Type) := Machine.Config (Shared ι F T P W) (Pc F T P W) ι

/-- All interleavings of calls on a task that is spawned with the future `fut`. -/
def taskMachine (fut : F) : Machine (TaskConfig ι F T P W) (ι × Label F T P W) :=
  Machine.threads callStep ⟨Shared.new fut, fun _ => .idle⟩

end Hypertile
