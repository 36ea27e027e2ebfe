import Hypertile.CApi.Batch

/-!
# Spawning, polling and waiting through the C interface

The model of `hypertile_spawn`, `hypertile_poll` and `hypertile_wait` on one task: the worker stores
the result, sets `done`, takes the list of unparkers under its lock and unparks each; any number of
threads poll and wait, again and again. A waiter that does not find the task done makes a parker of
its own, looks again under the lock of the list before it puts its unparker there, and parks until
the task is done. The result is read and written under its own lock, each time in one step.
-/

namespace Hypertile

/-- The calls on a task, with whether `out_result` is given. -/
inductive TaskCall where
  | poll (out : Bool)
  | wait (out : Bool)
  deriving DecidableEq

/-- `HypertileTaskInner`, and which threads have an unpark token in the parker they have made. -/
structure SpawnShared (ι : Type) where
  result : Option (Except String Ptr)
  done : Bool
  /-- The lock of `unparkers` is held. -/
  locked : Bool
  unparkers : List ι
  token : ι → Bool

/-- Where the worker or a caller stands. -/
inductive SpawnPc (ι : Type) where
  /-- The worker: at work, about to store, about to set `done`, about to lock the list, to take it
  and to unlock it, and unparking. -/
  | running
  | storing
  | publishing
  | lockList
  | taking
  | unlockList (waiters : List ι)
  | unparking (waiters : List ι)
  | finished
  /-- A caller: not in a call, or back from one, with what it wrote to `out_result`. -/
  | idle
  | returned (call : TaskCall) (res : HypertileStatus) (out : Option Ptr)
  /-- About to look at `done` first. -/
  | load (call : TaskCall)
  | newParker (call : TaskCall)
  /-- About to lock the list, to look at `done` again, to push and to unlock. -/
  | lockPush (call : TaskCall)
  | recheck (call : TaskCall)
  | push (call : TaskCall)
  | unlockPush (call : TaskCall)
  /-- The park loop. -/
  | check (call : TaskCall)
  | park (call : TaskCall)
  /-- About to read the result. -/
  | read (call : TaskCall)
  deriving DecidableEq

/-- What is chosen for a thread: its next step, or a new call. -/
inductive SpawnAct where
  | go
  | call (call : TaskCall)
  deriving DecidableEq

/-- What a call returns that has found the task done, and what it writes. -/
def readResult (result : Option (Except String Ptr)) :
    TaskCall → HypertileStatus × Option Ptr
  | .poll out =>
    match result with
    | some (.ok val) => (.ok, if out then some val else none)
    | some (.error _) => (.errPanic, none)
    | none => (.pending, none)
  | .wait out =>
    match result with
    | some (.ok val) => (.ok, if out then some val else none)
    | some (.error _) => (.errPanic, none)
    | none => (.errNotInitialized, none)

/-- Where a call goes on that has not found the task done at first. -/
def SpawnPc.notDone {ι : Type} : TaskCall → SpawnPc ι
  | .poll out => .returned (.poll out) .pending none
  | .wait out => .newParker (.wait out)

section
variable {ι : Type} [DecidableEq ι]

/-- A step of the worker, whose work function ends with `out`. -/
def workerStep (out : Except String Ptr) (s : SpawnShared ι) :
    SpawnPc ι → SpawnAct → Option (SpawnShared ι × SpawnPc ι)
  | .running, .go => some (s, .storing)
  | .storing, .go => some ({ s with result := some out }, .publishing)
  | .publishing, .go => some ({ s with done := true }, .lockList)
  | .lockList, .go => if s.locked then none else some ({ s with locked := true }, .taking)
  | .taking, .go => some ({ s with unparkers := [] }, .unlockList s.unparkers)
  | .unlockList waiters, .go => some ({ s with locked := false }, .unparking waiters)
  | .unparking [], .go => some (s, .finished)
  | .unparking (i :: waiters), .go =>
    some ({ s with token := Function.update s.token i true }, .unparking waiters)
  | _, _ => none

/-- A step of the caller `i`. -/
def callerStep (i : ι) (s : SpawnShared ι) :
    SpawnPc ι → SpawnAct → Option (SpawnShared ι × SpawnPc ι)
  | .idle, .call call => some (s, .load call)
  | .returned _ _ _, .call call => some (s, .load call)
  | .load call, .go => some (s, if s.done then .read call else .notDone call)
  | .newParker call, .go =>
    some ({ s with token := Function.update s.token i false }, .lockPush call)
  | .lockPush call, .go =>
    if s.locked then none else some ({ s with locked := true }, .recheck call)
  | .recheck call, .go => some (s, if s.done then .unlockPush call else .push call)
  | .push call, .go => some ({ s with unparkers := s.unparkers ++ [i] }, .unlockPush call)
  | .unlockPush call, .go => some ({ s with locked := false }, .check call)
  | .check call, .go => some (s, if s.done then .read call else .park call)
  | .park call, .go =>
    if s.token i then some ({ s with token := Function.update s.token i false }, .check call)
    else none
  | .read call, .go =>
    let answer := readResult s.result call
    some (s, .returned call answer.1 answer.2)
  | _, _ => none

/-- A step of the worker or of a caller. -/
def spawnStep (out : Except String Ptr) : Unit ⊕ ι → SpawnShared ι → SpawnPc ι → SpawnAct →
    Option (SpawnShared ι × SpawnPc ι)
  | .inl _ => workerStep out
  | .inr i => callerStep i

/-- A task that has just been spawned. -/
def spawnStart (ι : Type) : Machine.Config (SpawnShared ι) (SpawnPc ι) (Unit ⊕ ι) where
  shared := ⟨none, false, false, [], fun _ => false⟩
  loc := Sum.elim (fun _ => .running) fun _ => .idle

/-- The worker and the callers, interleaved. -/
def spawnMachine (out : Except String Ptr) :
    Machine (Machine.Config (SpawnShared ι) (SpawnPc ι) (Unit ⊕ ι)) ((Unit ⊕ ι) × SpawnAct) :=
  .threads (spawnStep out) (spawnStart ι)

end

end Hypertile
