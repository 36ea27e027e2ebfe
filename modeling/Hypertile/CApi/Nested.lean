import Hypertile.Machine.Threads

/-!
# Nested blocking calls

The model of a pool whose work functions call back into the C interface: `hypertile_batch_spawn`,
and `hypertile_spawn` followed by `hypertile_wait`. Tasks are numbered in the order in which they
are spawned. A spawn pushes the handle to the caller's own deque if the caller is a worker, and to
the injector otherwise (`ExecutorCore::inject`); a worker that is not in a work function takes a
handle from its deque, the injector or a peer, where a batch may move on to its own deque
(`WorkerHandle::find_task`), and runs the task to its end.

A blocking call parks the thread that makes it; the thread goes on once all that it waits for is
done. That it is unparked then, and not before, is the subject of `batch_spawn_barrier` and
`spawn_poll_wait`.
-/

namespace Hypertile

/-- The queues of a pool with `n` workers, the number of tasks spawned so far, and the tasks that
are done. -/
structure NestShared (n : ℕ) where
  injector : List ℕ
  deque : Fin n → List ℕ
  spawned : ℕ
  done : ℕ → Bool

/-- Where a thread stands. `task` is the task that a worker runs, `none` on other threads; `mine`
are the tasks that its code has spawned with `hypertile_spawn`. -/
inductive NestPc where
  /-- A worker that runs no task. -/
  | free
  | work (task : Option ℕ) (mine : List ℕ)
  /-- In the spawn loop of a batch call, with `left` chunks to spawn and the tasks of the others. -/
  | batch (task : Option ℕ) (mine : List ℕ) (left : ℕ) (chunks : List ℕ)
  /-- In the park loop of a call that waits for the tasks `awaited`. -/
  | park (task : Option ℕ) (mine awaited : List ℕ)
  deriving DecidableEq

/-- Where a worker finds a handle. -/
inductive HandleSource (n : ℕ) where
  | local
  | injector
  | peer (worker : Fin n)
  deriving DecidableEq

/-- What is chosen for a thread: its next step, the handle that it takes with the number of handles
that the batch moves, or the call that its code makes. -/
inductive NestAct (n : ℕ) where
  | go
  | take (source : HandleSource n) (more : ℕ)
  | spawn
  | batchSpawn (chunks : ℕ)
  | wait (task : ℕ)
  deriving DecidableEq

namespace NestShared

variable {n : ℕ} {ε : Type}

/-- Spawns a task on thread `t`. -/
def spawn (s : NestShared n) : Fin n ⊕ ε → NestShared n
  | .inl i => { s with
      deque := Function.update s.deque i (s.deque i ++ [s.spawned])
      spawned := s.spawned + 1 }
  | .inr _ => { s with injector := s.injector ++ [s.spawned], spawned := s.spawned + 1 }

/-- Worker `i` takes a handle. -/
def take (s : NestShared n) (i : Fin n) (more : ℕ) : HandleSource n → Option (ℕ × NestShared n)
  | .local =>
    match s.deque i with
    | [] => none
    | task :: rest => some (task, { s with deque := Function.update s.deque i rest })
  | .injector =>
    match s.injector with
    | [] => none
    | task :: rest => some (task, { s with
        injector := rest.drop more
        deque := Function.update s.deque i (s.deque i ++ rest.take more) })
  | .peer j =>
    if j = i then none
    else
      match s.deque j with
      | [] => none
      | task :: rest => some (task, { s with
          deque := Function.update (Function.update s.deque j (rest.drop more)) i
            (s.deque i ++ rest.take more) })

/-- All these tasks are done. -/
def allDone (s : NestShared n) (tasks : List ℕ) : Bool := tasks.all s.done

/-- The handle of the task is queued. -/
def Queued (s : NestShared n) (task : ℕ) : Prop := task ∈ s.injector ∨ ∃ i, task ∈ s.deque i

end NestShared

/-- A step of a thread. -/
def nestStep {n : ℕ} {ε : Type} (t : Fin n ⊕ ε) (s : NestShared n) :
    NestPc → NestAct n → Option (NestShared n × NestPc)
  | .free, .take source more =>
    match t with
    | .inl i => (s.take i more source).map fun r => (r.2, .work (some r.1) [])
    | .inr _ => none
  | .work (some task) _, .go =>
    some ({ s with done := Function.update s.done task true }, .free)
  | .work task mine, .spawn => some (s.spawn t, .work task (mine ++ [s.spawned]))
  | .work task mine, .batchSpawn chunks => some (s, .batch task mine chunks [])
  | .work task mine, .wait handle =>
    if handle ∈ mine then some (s, .park task mine [handle]) else none
  | .batch task mine (left + 1) chunks, .go =>
    some (s.spawn t, .batch task mine left (chunks ++ [s.spawned]))
  | .batch task mine 0 chunks, .go => some (s, .park task mine chunks)
  | .park task mine awaited, .go =>
    if s.allDone awaited then some (s, .work task mine) else none
  | _, _ => none

/-- A pool with `n` free workers, and threads that are no workers. -/
def nestStart (n : ℕ) (ε : Type) : Machine.Config (NestShared n) NestPc (Fin n ⊕ ε) where
  shared := ⟨[], fun _ => [], 0, fun _ => false⟩
  loc := Sum.elim (fun _ => .free) fun _ => .work none []

/-- The configurations of a pool with `n` workers and the other threads `ε`. -/
abbrev NestConfig (n : ℕ) (ε : Type) := Machine.Config (NestShared n) NestPc (Fin n ⊕ ε)

/-- All interleavings of the workers and the other threads. -/
def nestMachine (n : ℕ) (ε : Type) [DecidableEq ε] :
    Machine (NestConfig n ε) ((Fin n ⊕ ε) × NestAct n) :=
  .threads nestStep (nestStart n ε)

end Hypertile
