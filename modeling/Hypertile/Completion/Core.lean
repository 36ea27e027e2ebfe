import Hypertile.Machine.Threads
import Mathlib.Data.Fintype.Sum

/-!
# Completion callbacks

The four awaitable task types of the Python bindings (`NativeTask`, `CallableTask`,
`BatchNativeTask`, `BatchCallableTask`) keep a queue of completion callbacks beside the data that
their futures write. A future that completes the task drains the queue; `add_completion_callback`
checks for completion, pushes, checks again under the same lock, and drains the queue itself where
the task has completed meanwhile.

`TaskType` says what differs between the four types: the futures they spawn, what these do to the
data, when the task is done and what `result()` reads. `completionMachine` interleaves the futures
with any number of threads that register callbacks, one step for each lock, load, store and call. A
callback that registers another one is a thread of its own: no lock is held while a callback runs,
so nothing can tell the two apart.
-/

namespace Hypertile

/-- A Python error: one that user code raised, or one that the bindings build. -/
inductive PyErr (E : Type) where
  | raised (err : E)
  | panicInTask (msg : String)
  | runtimeError (msg : String)
  deriving DecidableEq

/-- How a task completes: its futures work on the inner state until they publish, which completes
the task or, where other futures have not published, does not. -/
structure TaskType (V E : Type) where
  /-- How many futures are spawned. -/
  futures : ℕ
  /-- The inner state, without the callbacks. -/
  Inner : Type
  /-- Where a future stands that has not published. -/
  Work : Type
  new : Inner
  start : Fin futures → Work
  /-- A step of a future: it goes on, or it has published and this was, or was not, the last. -/
  work : Fin futures → Work → Inner → Option (Inner × (Work ⊕ Bool))
  done : Inner → Bool
  result : Inner → Except (PyErr E) V
  /-- The outcomes that the futures can leave behind them. -/
  Outcome : Except (PyErr E) V → Prop

/-- What makes the completion of a task type sound: an invariant of the inner state and of the
places of the futures (`none` after publishing), under which the task is done once every future has
published, exactly the future that publishes last is told so, and a done task has an outcome. -/
structure TaskType.Lawful {V E : Type} (T : TaskType V E) where
  Inv : T.Inner → (Fin T.futures → Option T.Work) → Prop
  init : Inv T.new fun p => some (T.start p)
  step : ∀ {d : T.Inner} {f : Fin T.futures → Option T.Work} {p : Fin T.futures} {w : T.Work}
    {r : T.Inner × (T.Work ⊕ Bool)}, Inv d f → f p = some w → T.work p w d = some r →
    Inv r.1 (Function.update f p r.2.getLeft?)
  last : ∀ {d : T.Inner} {f : Fin T.futures → Option T.Work} {p : Fin T.futures} {w : T.Work}
    {d' : T.Inner} {final : Bool}, Inv d f → f p = some w → T.work p w d = some (d', .inr final) →
    final = T.done d'
  done_iff : ∀ {d : T.Inner} {f : Fin T.futures → Option T.Work}, Inv d f →
    (T.done d = true ↔ ∀ p, f p = none)
  outcome : ∀ {d : T.Inner} {f : Fin T.futures → Option T.Work}, Inv d f → T.done d = true →
    T.Outcome (T.result d)

/-! ## Callbacks -/

/-- An exception that a call of a Python callable ends with, as far as `wrap_done_callback` looks at
it: its type, and which substrings its text has. -/
structure CallError where
  isTypeError : Bool
  contains : String → Bool

/-- What a call of a Python callable does: whether its body is entered (it is not where the
arguments do not fit the parameters), and what the call ends with. -/
structure Call where
  enters : Bool
  outcome : Except CallError Unit

/-- A Python callable, as `wrap_done_callback` calls it: without arguments, and with the task. -/
structure Callable where
  call0 : Call
  call1 : Call

/-- The test of `wrap_done_callback` on the outcome of the call without arguments: the callable is
then called once more, with the task. -/
def Callable.fallsBack (cb : Callable) : Bool :=
  match cb.call0.outcome with
  | .ok () => false
  | .error err =>
    err.isTypeError && (err.contains "missing" && err.contains "required positional argument")

/-! ## The machine -/

/-- What all threads share: the inner state of the task, its callbacks under their lock, and a
record of what has happened. -/
structure Completion (D κ : Type) where
  inner : D
  /-- The lock of `callbacks` is held. -/
  locked : Bool
  callbacks : List κ
  /-- The callbacks given to `add_done_callback` so far. -/
  registered : List κ
  /-- The wrapped callbacks called so far. -/
  called : List κ
  /-- The callables whose body has been entered so far. -/
  entered : List κ
  /-- How many futures have been told that they published last. -/
  finals : ℕ

/-- Where a thread stands. -/
inductive CallbackPc (W κ : Type) where
  /-- A future that has not published. -/
  | working (w : W)
  | idle
  /-- `add_completion_callback`: about to lock, to check, to push, and to check again. -/
  | locking (cb : κ)
  | checking (cb : κ)
  | pushing (cb : κ)
  | rechecking
  /-- A future that published last, about to lock. -/
  | draining
  /-- About to take the callbacks, the lock held. -/
  | taking
  /-- About to unlock, and then to call `queue`. -/
  | dropping (queue : List κ)
  | calling (queue : List κ)
  /-- In the wrapper of `cb`, about to call it with the task. -/
  | retrying (cb : κ) (queue : List κ)
  deriving DecidableEq

/-- What is chosen for a thread: its next step, or a new call of `add_done_callback`. -/
inductive CallbackAct (κ : Type) where
  | go
  | register (cb : κ)
  deriving DecidableEq

section
variable {V E κ : Type} (T : TaskType V E) (callable : κ → Callable)

/-- The bodies entered by the call of `cb` without arguments. -/
def enters0 (cb : κ) : List κ := if (callable cb).call0.enters then [cb] else []

/-- The bodies entered by the call of `cb` with the task. -/
def enters1 (cb : κ) : List κ := if (callable cb).call1.enters then [cb] else []

namespace Completion

/-- A future has taken a step. -/
def advance {D W : Type} (s : Completion D κ) (d : D) : W ⊕ Bool → Completion D κ × CallbackPc W κ
  | .inl w => ({ s with inner := d }, .working w)
  | .inr true => ({ s with inner := d, finals := s.finals + 1 }, .draining)
  | .inr false => ({ s with inner := d }, .idle)

end Completion

/-- One step of a thread. -/
def completionStep {ι : Type} (t : Fin T.futures ⊕ ι) (s : Completion T.Inner κ) :
    CallbackPc T.Work κ → CallbackAct κ → Option (Completion T.Inner κ × CallbackPc T.Work κ)
  | .working w, .go =>
    match t with
    | .inl p => (T.work p w s.inner).map fun r => s.advance r.1 r.2
    | .inr _ => none
  | .idle, .register cb => some ({ s with registered := cb :: s.registered }, .locking cb)
  | .locking cb, .go => if s.locked then none else some ({ s with locked := true }, .checking cb)
  | .checking cb, .go => some (s, if T.done s.inner then .dropping [cb] else .pushing cb)
  | .pushing cb, .go => some ({ s with callbacks := s.callbacks ++ [cb] }, .rechecking)
  | .rechecking, .go => some (s, if T.done s.inner then .taking else .dropping [])
  | .draining, .go => if s.locked then none else some ({ s with locked := true }, .taking)
  | .taking, .go => some ({ s with callbacks := [] }, .dropping s.callbacks)
  | .dropping queue, .go => some ({ s with locked := false }, .calling queue)
  | .calling [], .go => some (s, .idle)
  | .calling (cb :: queue), .go =>
    some ({ s with called := cb :: s.called, entered := enters0 callable cb ++ s.entered },
      if (callable cb).fallsBack then .retrying cb queue else .calling queue)
  | .retrying cb queue, .go =>
    some ({ s with entered := enters1 callable cb ++ s.entered }, .calling queue)
  | _, _ => none

/-- Where the threads start: the futures at work, the callers idle. -/
def startPc {ι : Type} : Fin T.futures ⊕ ι → CallbackPc T.Work κ
  | .inl p => .working (T.start p)
  | .inr _ => .idle

/-- A task that has just been spawned, with its futures and callers. -/
def newTask (κ ι : Type) :
    Machine.Config (Completion T.Inner κ) (CallbackPc T.Work κ) (Fin T.futures ⊕ ι) :=
  ⟨⟨T.new, false, [], [], [], [], 0⟩, startPc T⟩

/-- The futures of a task and any threads that register callbacks, interleaved. -/
def completionMachine (ι : Type) [DecidableEq ι] :
    Machine (Machine.Config (Completion T.Inner κ) (CallbackPc T.Work κ) (Fin T.futures ⊕ ι))
      ((Fin T.futures ⊕ ι) × CallbackAct κ) :=
  .threads (completionStep T callable) (newTask T κ ι)

end

end Hypertile
