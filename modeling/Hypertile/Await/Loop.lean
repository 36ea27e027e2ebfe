import Hypertile.Completion.ExactlyOnce

/-!
# Awaiting a task under asyncio

Any number of awaiters of one task of the Python bindings, under a running asyncio loop: each await
creates a future and registers a completion callback (`bridge_task_await`), which runs on whatever
thread completes the task. The callback looks whether the future was cancelled, reads `result()` and
posts `set_result` or `set_exception` to the loop with `call_soon_threadsafe`; the loop executes
what was posted in order, and can cancel a future in between. A step of a thread is a step of the
completion machine or one of these operations; what the loop does is done by threads that are not in
the middle of a call.

The look and the effect are two steps on two threads. Every future is resolved at most once and only
with the outcome of the task, and is not left pending; but a future that is cancelled between the
look and the effect is resolved although it is dead (`await_resolves`).
-/

namespace Hypertile

open Machine Machine.Threads

/-! ## The machine -/

/-- The state of an asyncio future. -/
inductive FutureState (R : Type) where
  | pending
  | done (outcome : R)
  | cancelled

/-- Where a completion callback stands: about to look whether its future was cancelled, to read
`result()`, and to post the outcome. -/
inductive BridgePc (R : Type) where
  | check
  | read
  | post (outcome : R)

/-- What all threads share: the task with its callbacks, the futures of the awaits so far, and what
was posted to the loop. The callback of an await is named by its future. `resolved` and `invalid`
record the calls of `set_result` and `set_exception` that the loop has executed: on a pending
future, and on one that was not, which raises `InvalidStateError`. -/
structure AwaitShared (D κ R : Type) where
  completion : Completion D κ
  futures : κ → Option (FutureState R)
  queue : List (κ × R)
  resolved : List κ
  invalid : List κ

/-- Where a thread stands in the code of the task, and in a completion callback that it has called.
-/
structure AwaitThread (W κ R : Type) where
  pc : CallbackPc W κ
  body : Option (κ × BridgePc R)

/-- What is chosen for a thread: its next step, or what the loop does. -/
inductive AwaitAct (κ : Type) where
  | go
  | await (fut : κ)
  | cancel (fut : κ)
  /-- The loop executes what was posted first. -/
  | exec
  deriving DecidableEq

/-- The callback of `bridge_task_await`, as `wrap_done_callback` calls it: it takes any arguments
and raises nothing. -/
def bridgeCallback : Callable := ⟨⟨true, .ok ()⟩, ⟨true, .ok ()⟩⟩

/-- The callback that a thread calls with its next step, if any. -/
def CallbackPc.calls {W κ : Type} : CallbackPc W κ → Option κ
  | .calling (cb :: _) => some cb
  | _ => none

section
variable {V E κ ι : Type} [DecidableEq κ] (T : TaskType V E)

/-- What `result()` gives. -/
abbrev TaskOutcome (V E : Type) := Except (PyErr E) V

/-- A step of a completion callback. -/
def bridgeStep (s : AwaitShared T.Inner κ (TaskOutcome V E)) (fut : κ) :
    BridgePc (TaskOutcome V E) → AwaitShared T.Inner κ (TaskOutcome V E) ×
      Option (κ × BridgePc (TaskOutcome V E))
  | .check =>
    match s.futures fut with
    | some .cancelled => (s, none)
    | _ => (s, some (fut, .read))
  | .read => (s, some (fut, .post (T.result s.completion.inner)))
  | .post outcome => ({ s with queue := s.queue ++ [(fut, outcome)] }, none)

/-- The loop executes `set_result` or `set_exception`. -/
def AwaitShared.resolve {D R : Type} (s : AwaitShared D κ R) (fut : κ) (outcome : R) :
    AwaitShared D κ R :=
  match s.futures fut with
  | some .pending =>
    { s with
      futures := Function.update s.futures fut (some (.done outcome))
      resolved := fut :: s.resolved }
  | _ => { s with invalid := fut :: s.invalid }

/-- A step of the loop. -/
def loopAct {D R : Type} (s : AwaitShared D κ R) : AwaitAct κ → Option (AwaitShared D κ R)
  | .cancel fut =>
    match s.futures fut with
    | some .pending =>
      some { s with futures := Function.update s.futures fut (some .cancelled) }
    | some _ => some s
    | none => none
  | .exec =>
    match s.queue with
    | (fut, outcome) :: queue => some ({ s with queue }.resolve fut outcome)
    | [] => none
  | _ => none

/-- A step of a thread. -/
def awaitStep (t : Fin T.futures ⊕ ι) (s : AwaitShared T.Inner κ (TaskOutcome V E))
    (l : AwaitThread T.Work κ (TaskOutcome V E)) (a : AwaitAct κ) :
    Option (AwaitShared T.Inner κ (TaskOutcome V E) × AwaitThread T.Work κ (TaskOutcome V E)) :=
  match l.body, a with
  | some (fut, b), .go =>
    let r := bridgeStep T s fut b
    some (r.1, { l with body := r.2 })
  | none, .go =>
    (completionStep T (fun _ => bridgeCallback) t s.completion l.pc .go).map fun r =>
      ({ s with completion := r.1 }, ⟨r.2, l.pc.calls.map fun cb => (cb, .check)⟩)
  | none, .await fut =>
    match s.futures fut with
    | none =>
      (completionStep T (fun _ => bridgeCallback) t s.completion l.pc (.register fut)).map fun r =>
        ({ s with
            completion := r.1
            futures := Function.update s.futures fut (some .pending) }, ⟨r.2, none⟩)
    | some _ => none
  | none, a =>
    match l.pc with
    | .idle => (loopAct s a).map fun s' => (s', l)
    | _ => none
  | _, _ => none

/-- The configurations of a task and its awaiters. -/
abbrev AwaitConfig (T : TaskType V E) (κ ι : Type) :=
  Config (AwaitShared T.Inner κ (TaskOutcome V E)) (AwaitThread T.Work κ (TaskOutcome V E))
    (Fin T.futures ⊕ ι)

/-- A task that has just been spawned, without awaiters. -/
def awaitStart (κ ι : Type) : AwaitConfig T κ ι :=
  ⟨⟨(newTask T κ ι).shared, fun _ => none, [], [], []⟩, fun t => ⟨startPc T t, none⟩⟩

/-- All interleavings of the futures of a task, its completion callbacks and the loop. -/
def awaitMachine (κ ι : Type) [DecidableEq κ] [DecidableEq ι] :
    Machine (AwaitConfig T κ ι) ((Fin T.futures ⊕ ι) × AwaitAct κ) :=
  .threads (awaitStep T) (awaitStart T κ ι)

end

end Hypertile
