import Hypertile.Machine.Threads

/-!
# Coroutine tasks

The model of `bilingual.rs`: one `PyCoroutineTask` with a done callback, that `spawn_coroutine` has
injected. Any thread can pop a queued handle and call `run`, fire the wake callback of an object
that the coroutine has yielded, and set the cancellation token. A step of a thread is one access to
a field of the task, one push of a handle, or one call into Python.

The coroutine is any machine: how a `send` or `throw` ends is chosen by the action, and so is
whether `add_done_callback` of the yielded object accepts the wake callback, and when it fires it. A
callback that is fired from inside a call of `run` is a thread of its own that happens to move while
the call is under way. `ended` and `calls` record the outcome by which the coroutine has ended, and
with what the done callback was called.
-/

namespace Hypertile

/-- The payload of a panic: a text, or another value. -/
inductive PanicPayload where
  | text (msg : String)
  | other
  deriving DecidableEq

/-- The message that `run` makes of a panic payload. -/
def PanicPayload.msg : PanicPayload → String
  | .text msg => msg
  | .other => "coroutine panicked during execution"

/-- The errors that a done callback is called with: one that the coroutine raised, or one that `run`
builds. -/
inductive CoroErr (E : Type) where
  | raised (err : E)
  | panicInTask (msg : String)
  /-- The executor cannot drive an awaitable of this type. -/
  | typeError (typeName : String)
  | taskCancelled (msg : String)
  deriving DecidableEq

/-- How a `send` or `throw` ends. -/
inductive StepResult (V E : Type) where
  /-- `StopIteration`, with its value. -/
  | returned (value : V)
  | raised (err : E)
  | panicked (payload : PanicPayload)
  | yieldedNone
  /-- An object that has `add_done_callback`, and its type. -/
  | yieldedHook (typeName : String)
  /-- Another object. -/
  | yieldedOpaque (typeName : String)
  deriving DecidableEq

/-- The outcome of a coroutine that a step ends. -/
def StepResult.outcome {V E : Type} : StepResult V E → Option (Except (CoroErr E) V)
  | .returned value => some (.ok value)
  | .raised err => some (.error (.raised err))
  | .panicked payload => some (.error (.panicInTask payload.msg))
  | .yieldedOpaque typeName => some (.error (.typeError typeName))
  | .yieldedNone | .yieldedHook _ => none

/-- A `PyCoroutineTask`, with its handles that are queued and its wake callbacks that are registered
and were not fired. -/
structure CoroTask (V E : Type) where
  /-- The slot `coro` is not empty. -/
  coro : Bool
  /-- The lock of `coro` is held. -/
  locked : Bool
  doneCallback : Bool
  pendingValue : Option (Except E V)
  token : Bool
  queued : ℕ
  hooks : ℕ
  ended : Option (Except (CoroErr E) V)
  calls : List (Except (CoroErr E) V)

/-- Where a thread stands. -/
inductive CoroPc (V E : Type) where
  | idle
  /-- In `run`: about to lock the coroutine, to look at it, at the token, and to take the input. -/
  | locking
  | entered
  | checkToken
  | takeInput
  /-- In the `throw` of the cancellation branch. -/
  | throwing
  /-- In a `send` or `throw` under `catch_unwind`, with the value or the exception. -/
  | stepping (input : Option (Except E V))
  /-- In `add_done_callback`, before and after the object has accepted the wake callback. -/
  | hooking (typeName : String)
  | hooked
  /-- About to inject the task again, after a bare `yield`. -/
  | requeue
  /-- About to empty the slot, and then to take the done callback, and in its call. -/
  | ending (outcome : Except (CoroErr E) V)
  | notify (outcome : Except (CoroErr E) V)
  | calling
  /-- About to release the lock and return. -/
  | release
  /-- `run` was left by a panic. -/
  | unwound
  /-- In a wake callback, about to store what the object gives, and then to inject the task. -/
  | fired
  | injecting
  deriving DecidableEq

/-- What is chosen for a thread: its next step, an action that it begins, or how a call into Python
ends. -/
inductive CoroAct (V E : Type) where
  | go
  /-- Pops a queued handle and runs it. -/
  | run
  /-- Fires a wake callback. -/
  | fire
  /-- Sets the cancellation token. -/
  | cancel
  | stepped (result : StepResult V E)
  /-- The `throw` of the cancellation branch returns or raises. -/
  | thrown
  | throwPanicked (payload : PanicPayload)
  | accept
  | refuse
  /-- What the methods `exception` and `result` of the object give, if anything. -/
  | resolve (value : Option (Except E V))
  deriving DecidableEq

section
variable {V E : Type}

/-- `PyCoroutineTask::run`, from the place where the thread holds the lock. -/
def coroRunStep (s : CoroTask V E) :
    CoroPc V E → CoroAct V E → Option (CoroTask V E × CoroPc V E)
  | .entered, .go => some (s, if s.coro then .checkToken else .release)
  | .checkToken, .go => some (s, if s.token then .throwing else .takeInput)
  | .throwing, .thrown =>
    let outcome := .error (.taskCancelled "cancelled")
    some ({ s with ended := some outcome }, .ending outcome)
  | .throwing, .throwPanicked _ => some ({ s with locked := false }, .unwound)
  | .takeInput, .go => some ({ s with pendingValue := none }, .stepping s.pendingValue)
  | .stepping _, .stepped .yieldedNone => some (s, .requeue)
  | .stepping _, .stepped (.yieldedHook typeName) => some (s, .hooking typeName)
  | .stepping _, .stepped result =>
    result.outcome.map fun outcome => ({ s with ended := some outcome }, .ending outcome)
  | .hooking _, .accept => some ({ s with hooks := s.hooks + 1 }, .hooked)
  | .hooking typeName, .refuse =>
    let outcome := .error (.typeError typeName)
    some ({ s with ended := some outcome }, .ending outcome)
  | .hooked, .go => some (s, .release)
  | .requeue, .go => some ({ s with queued := s.queued + 1 }, .release)
  | .ending outcome, .go => some ({ s with coro := false }, .notify outcome)
  | .notify outcome, .go =>
    if s.doneCallback then
      some ({ s with doneCallback := false, calls := outcome :: s.calls }, .calling)
    else some (s, .release)
  | .calling, .go => some (s, .release)
  | .release, .go => some ({ s with locked := false }, .idle)
  | _, _ => none

/-- A step of a thread. -/
def coroStep (s : CoroTask V E) : CoroPc V E → CoroAct V E → Option (CoroTask V E × CoroPc V E)
  | .idle, .run =>
    if 0 < s.queued then some ({ s with queued := s.queued - 1 }, .locking) else none
  | .idle, .fire => if 0 < s.hooks then some ({ s with hooks := s.hooks - 1 }, .fired) else none
  | .idle, .cancel => some ({ s with token := true }, .idle)
  | .locking, .go => if s.locked then none else some ({ s with locked := true }, .entered)
  | .fired, .resolve value =>
    some ({ s with pendingValue := value.orElse fun _ => s.pendingValue }, .injecting)
  | .injecting, .go => some ({ s with queued := s.queued + 1 }, .idle)
  | pc, a => coroRunStep s pc a

/-- The task after `spawn_coroutine` has injected it. -/
def CoroTask.new : CoroTask V E where
  coro := true
  locked := false
  doneCallback := true
  pendingValue := none
  token := false
  queued := 1
  hooks := 0
  ended := none
  calls := []

/-- A task that has just been spawned, and the threads `ι`. -/
def coroStart (V E ι : Type) : Machine.Config (CoroTask V E) (CoroPc V E) ι :=
  ⟨.new, fun _ => .idle⟩

/-- All interleavings of runs, wake callbacks and cancellation. -/
def coroMachine (V E ι : Type) [DecidableEq ι] :
    Machine (Machine.Config (CoroTask V E) (CoroPc V E) ι) (ι × CoroAct V E) :=
  .threads (fun _ => coroStep) (coroStart V E ι)

end

end Hypertile
