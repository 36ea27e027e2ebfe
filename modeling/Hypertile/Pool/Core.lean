import Hypertile.Machine.Threads
import Mathlib.Data.List.Rotate
import Mathlib.Data.Multiset.AddSub

/-!
# The queues of the pool

The model of the queue operations of `hypertile-core`: the thread-local slot of `waker.rs`, the
registry and the injector of `executor.rs`, and from `worker.rs` the registration of a worker, the
drop of its guard and `find_task`. Any number of cores and threads run operations side by side; one
step of a thread is one operation on a queue, one access to its own slot, or one section under the
lock of a registry.

A deque of `crossbeam` is a list with its front first, of which the owner pops and the others steal
at the front. How many tasks a batch moves, and whether an attempt must be retried, is chosen by the
action. Idle workers and parking are left out: they move no task.

Some fields record what the code does not keep: the worker a deque was made for, the deque of a
registration, the deques that were drained and dropped, the handles that were injected and those
that were returned for execution, and in a drain loop how many handles it has left to pop.
-/

namespace Hypertile

/-- A worker id, unique in its core as long as the counter does not wrap. -/
abbrev WorkerId := ℕ

/-- The identity of a deque. -/
abbrev DequeId := ℕ

/-- What the registry keeps of a worker: its id, and the deque its stealer steals from. -/
structure WorkerEntry where
  id : WorkerId
  stealer : DequeId
  deriving DecidableEq

/-- The registered workers, the cached list of their stealers, and the counter of ids. -/
structure WorkerRegistry where
  workers : List WorkerEntry
  stealersCache : List WorkerEntry
  nextId : WorkerId

namespace WorkerRegistry

/-- `FIRST_WORKER_ID`. -/
def firstWorkerId : WorkerId := 1

/-- `WorkerRegistry::new`. -/
def new : WorkerRegistry := ⟨[], [], firstWorkerId⟩

/-- `allocate_id`: a `fetch_add` on a `usize`, which wraps. -/
def allocateId (r : WorkerRegistry) : WorkerId × WorkerRegistry :=
  (r.nextId, { r with nextId := (r.nextId + 1) % 2 ^ 64 })

/-- `rebuild_stealers_cache`. -/
def rebuildStealersCache (r : WorkerRegistry) : WorkerRegistry :=
  { r with stealersCache := r.workers }

/-- `register`: the entry replaces one with its id. -/
def register (r : WorkerRegistry) (entry : WorkerEntry) : WorkerRegistry :=
  { r with workers := entry :: r.workers.filter (·.id ≠ entry.id) }.rebuildStealersCache

/-- `deregister`. -/
def deregister (r : WorkerRegistry) (id : WorkerId) : WorkerRegistry :=
  { r with workers := r.workers.filter (·.id ≠ id) }.rebuildStealersCache

end WorkerRegistry

/-- A core of the pool; `H` is the type of task handles. -/
structure ExecutorCore (H : Type) where
  injector : List H
  registry : WorkerRegistry
  running : Bool

/-- One registration of a worker, as its `WorkerHandle` and its `WorkerGuard` keep it. `κ` is the
type of cores. -/
structure Registration (κ : Type) where
  core : κ
  id : WorkerId
  deque : DequeId
  deriving DecidableEq

/-- What all threads share. -/
structure Pool (κ H : Type) where
  core : κ → ExecutorCore H
  deque : DequeId → List H
  /-- The number of deques made so far. -/
  nextDeque : DequeId
  /-- The core and the id of the worker whose registration made a deque. -/
  madeFor : DequeId → Option (κ × WorkerId)
  /-- The deques that were drained and dropped. -/
  retired : Multiset DequeId
  /-- The workers that were registered. -/
  handles : List (Registration κ)
  /-- The guards that were not dropped. -/
  guards : List (Registration κ)
  /-- The `tick` of the worker whose registration made a deque, a `usize`, which wraps. -/
  tick : DequeId → ℕ
  /-- The handles that were injected. -/
  injected : Multiset H
  /-- The handles that were returned for execution, with the core of the worker they went to. -/
  returned : Multiset (κ × H)

/-- `LOCAL_WORKER_DEQUE` of one thread. -/
abbrev Slot := Option (WorkerId × DequeId)

/-! ## The thread-local slot -/

/-- `set_local_worker`. -/
def setLocalWorker (id : WorkerId) (worker : DequeId) (_ : Slot) : Slot := some (id, worker)

/-- `take_any_local_worker`. -/
def takeAnyLocalWorker (slot : Slot) : Option DequeId × Slot := (slot.map Prod.snd, none)

/-- `take_local_worker`. -/
def takeLocalWorker (id : WorkerId) (slot : Slot) : Option DequeId × Slot :=
  match slot with
  | some (owner, worker) => if owner = id then (some worker, none) else (none, slot)
  | none => (none, slot)

/-! ## Queues -/

/-- What a steal gives. -/
inductive Steal (H : Type) where
  | empty
  | success (task : H)
  | retry
  deriving DecidableEq

/-- What is chosen for a steal: that it has to be retried, or the number of tasks that the batch
moves besides the one that is returned. -/
inductive Choice where
  | retry
  | batch (n : ℕ)
  deriving DecidableEq

/-- Where a task is looked for: the injector of a core, the deque in the slot of the thread, or the
deque of a stealer. -/
inductive Source (κ : Type) where
  | injector (core : κ)
  | local
  | stealer (worker : DequeId)
  deriving DecidableEq

/-- The number of tasks that a batch may move: none without a deque to move them to. -/
def batchSize (slot : Slot) (n : ℕ) : ℕ := if slot.isSome then n else 0

namespace Pool

variable {κ H : Type} [DecidableEq κ]

/-- Sets the contents of a deque. -/
def setDeque (p : Pool κ H) (d : DequeId) (tasks : List H) : Pool κ H :=
  { p with deque := Function.update p.deque d tasks }

/-- Changes one core. -/
def setCore (p : Pool κ H) (k : κ) (core : ExecutorCore H) : Pool κ H :=
  { p with core := Function.update p.core k core }

/-- Sets the contents of an injector. -/
def setInjector (p : Pool κ H) (k : κ) (tasks : List H) : Pool κ H :=
  p.setCore k { p.core k with injector := tasks }

/-- Changes one registry. -/
def setRegistry (p : Pool κ H) (k : κ) (registry : WorkerRegistry) : Pool κ H :=
  p.setCore k { p.core k with registry := registry }

/-- `Worker::push`. -/
def push (p : Pool κ H) (d : DequeId) (task : H) : Pool κ H :=
  p.setDeque d (p.deque d ++ [task])

/-- `Injector::push`. -/
def pushInjector (p : Pool κ H) (k : κ) (task : H) : Pool κ H :=
  p.setInjector k ((p.core k).injector ++ [task])

/-- `Worker::pop`. -/
def pop (p : Pool κ H) (d : DequeId) : Pool κ H × Steal H :=
  match p.deque d with
  | [] => (p, .empty)
  | task :: rest => (p.setDeque d rest, .success task)

/-- Appends a batch of tasks to the deque in the slot. -/
def receive (p : Pool κ H) (slot : Slot) (tasks : List H) : Pool κ H :=
  match slot with
  | some (_, d) => p.setDeque d (p.deque d ++ tasks)
  | none => p

/-- `steal_injector_into_local`: `steal_batch_and_pop` into the deque in the slot, or `steal`. -/
def stealInjectorIntoLocal (p : Pool κ H) (slot : Slot) (k : κ) : Choice → Pool κ H × Steal H
  | .retry => (p, .retry)
  | .batch n =>
    match (p.core k).injector with
    | [] => (p, .empty)
    | task :: rest =>
      ((p.setInjector k (rest.drop (batchSize slot n))).receive slot (rest.take (batchSize slot n)),
        .success task)

/-- `steal_into_local`: `steal_batch_and_pop` into the deque in the slot, which pops where that is
the deque it steals from, or `steal`. -/
def stealIntoLocal (p : Pool κ H) (slot : Slot) (d : DequeId) (ch : Choice) : Pool κ H × Steal H :=
  if slot.map Prod.snd = some d then p.pop d
  else
    match ch with
    | .retry => (p, .retry)
    | .batch n =>
      match p.deque d with
      | [] => (p, .empty)
      | task :: rest =>
        ((p.setDeque d (rest.drop (batchSize slot n))).receive slot (rest.take (batchSize slot n)),
          .success task)

/-- `local_pop`. -/
def localPop (p : Pool κ H) (slot : Slot) : Pool κ H × Steal H :=
  match slot with
  | some (_, d) => p.pop d
  | none => (p, .empty)

/-- One attempt to get a task. -/
def fetch (p : Pool κ H) (slot : Slot) (ch : Choice) : Source κ → Pool κ H × Steal H
  | .injector k => p.stealInjectorIntoLocal slot k ch
  | .local => p.localPop slot
  | .stealer d => p.stealIntoLocal slot d ch

/-- Records that a task was injected. -/
def recordInjected (p : Pool κ H) (task : H) : Pool κ H :=
  { p with injected := task ::ₘ p.injected }

/-- Records that a task was returned to a worker of a core. -/
def recordReturned (p : Pool κ H) (k : κ) (task : H) : Pool κ H :=
  { p with returned := (k, task) ::ₘ p.returned }

/-- Makes a deque for the registration of a worker at a core. -/
def newDeque (p : Pool κ H) (k : κ) (id : WorkerId) : DequeId × Pool κ H :=
  (p.nextDeque, { p with
    nextDeque := p.nextDeque + 1
    madeFor := Function.update p.madeFor p.nextDeque (some (k, id)) })

/-- A deque that was drained is dropped. -/
def retire (p : Pool κ H) (d : DequeId) : Pool κ H := { p with retired := d ::ₘ p.retired }

/-- The registration at a core is complete: the worker has a handle and a guard. -/
def register (p : Pool κ H) (r : Registration κ) : Pool κ H :=
  { p.setRegistry r.core ((p.core r.core).registry.register ⟨r.id, r.deque⟩) with
    handles := r :: p.handles
    guards := r :: p.guards }

/-- A guard begins to be dropped: its worker is deregistered. -/
def deregister (p : Pool κ H) (g : Registration κ) : Pool κ H :=
  { p.setRegistry g.core ((p.core g.core).registry.deregister g.id) with
    guards := p.guards.erase g }

end Pool

/-! ## Threads -/

/-- What follows a drain loop: `WorkerHandle::new` installs the new deque, `WorkerGuard::drop` is
done. -/
inductive AfterDrain where
  | install (id : WorkerId) (worker : DequeId)
  | done
  deriving DecidableEq

/-- A drain loop: the core it injects into, the deque it pops, an upper bound of what is left to
pop, and what follows. -/
structure Drain (κ : Type) where
  core : κ
  deque : DequeId
  left : ℕ
  after : AfterDrain
  deriving DecidableEq

/-- Where a call of `find_task` stands; `W` is what it knows of a peer. -/
inductive FindPc (W : Type) where
  | injectorFirst
  | localDeque
  | injector
  | injectorAgain
  | stealers
  | peers (rest : List W)
  | peerAgain (peer : W) (rest : List W)
  deriving DecidableEq

/-- Where a thread stands; `idle` between operations. -/
inductive PoolPc (κ H : Type) where
  | idle
  /-- `ExecutorCore::inject`, about to try the local deque, called by the drain loop if any. -/
  | inject (core : κ) (task : H) (loop : Option (Drain κ))
  /-- `ExecutorCore::inject`, about to push to the injector. -/
  | push (core : κ) (task : H) (loop : Option (Drain κ))
  /-- `WorkerHandle::new`, about to take the previous deque. -/
  | takeAny (core : κ) (id : WorkerId) (worker : DequeId)
  | drain (loop : Drain κ)
  /-- `WorkerHandle::new`, about to install the new deque. -/
  | install (core : κ) (id : WorkerId) (worker : DequeId)
  /-- `WorkerHandle::new`, about to register. -/
  | register (core : κ) (id : WorkerId) (worker : DequeId)
  /-- `WorkerGuard::drop`, about to take back the deque. -/
  | takeLocal (guard : Registration κ)
  | find (worker : Registration κ) (pc : FindPc WorkerEntry)
  deriving DecidableEq

/-- The slot of a thread and where it stands. -/
structure PoolThread (κ H : Type) where
  slot : Slot
  pc : PoolPc κ H
  deriving DecidableEq

/-- The operation that an idle thread begins, or the next step of the one under way. -/
inductive PoolLabel (κ H : Type) where
  /-- `ExecutorCore::inject`: by `spawn`, and as `schedule` by the fallback of a wake. -/
  | inject (core : κ) (task : H)
  /-- `try_push_local` and `inject` of what it hands back: `spawn_local`, `wake_by_ref` and the
  re-queue of `run`. -/
  | handOff (core : κ) (task : H)
  /-- `try_push_local` on its own. -/
  | tryPushLocal (task : H)
  /-- `local_pop`, `steal_injector_into_local` or `steal_into_local`, in the loop of a worker of the
  core. -/
  | fetch (core : κ) (source : Source κ) (choice : Choice)
  | findTask (worker : Registration κ)
  | newWorker (core : κ)
  | dropGuard (guard : Registration κ)
  | shutdown (core : κ)
  | go
  /-- The next attempt of `find_task` to get a task. -/
  | attempt (choice : Choice)
  /-- `find_task` starts at this peer. -/
  | start (victim : ℕ)
  deriving DecidableEq

section
variable {κ H : Type} [DecidableEq κ]

/-- `try_push_local`; `none` when the task is handed back. -/
def tryPushLocal (p : Pool κ H) (slot : Slot) (task : H) : Option (Pool κ H) :=
  slot.map fun owned => p.push owned.2 task

/-- Where a thread stands after `ExecutorCore::inject`. -/
def afterInject (loop : Option (Drain κ)) : PoolPc κ H := loop.elim .idle .drain

/-- Where a thread stands after a drain loop. -/
def Drain.exit (loop : Drain κ) : PoolPc κ H :=
  match loop.after with
  | .install id worker => .install loop.core id worker
  | .done => .idle

/-- What `find_task` tries at its place; nothing at a peer that is the worker itself. -/
def FindPc.source (worker : Registration κ) : FindPc WorkerEntry → Option (Source κ)
  | .injectorFirst | .injector | .injectorAgain => some (.injector worker.core)
  | .localDeque => some .local
  | .peers (peer :: _) => if peer.id = worker.id then none else some (.stealer peer.stealer)
  | .peerAgain peer _ => some (.stealer peer.stealer)
  | .stealers | .peers [] => none

/-- Where `find_task` goes on after an attempt that found nothing. -/
def FindPc.onEmpty {W : Type} : FindPc W → FindPc W
  | .injectorFirst => .localDeque
  | .localDeque => .injector
  | .injector | .injectorAgain => .stealers
  | .peers (_ :: rest) | .peerAgain _ rest => .peers rest
  | pc => pc

/-- Where `find_task` goes on after an attempt that has to be retried. -/
def FindPc.onRetry {W : Type} : FindPc W → FindPc W
  | .injector => .injectorAgain
  | .peers (peer :: rest) => .peerAgain peer rest
  | pc => pc.onEmpty

/-- One step of `find_task`, by the thread with this slot. -/
def findTaskStep (p : Pool κ H) (slot : Slot) (worker : Registration κ)
    (pc : FindPc WorkerEntry) : PoolLabel κ H → Option (Pool κ H × PoolPc κ H)
  | .attempt ch => (pc.source worker).map fun source =>
    match p.fetch slot ch source with
    | (p', .success task) => (p'.recordReturned worker.core task, .idle)
    | (p', .empty) => (p', .find worker pc.onEmpty)
    | (p', .retry) => (p', .find worker pc.onRetry)
  | .start victim =>
    match pc with
    | .stealers =>
      let stealers := (p.core worker.core).registry.stealersCache
      some (p, if 1 < stealers.length then
        .find worker (.peers (stealers.rotate (victim % stealers.length))) else .idle)
    | _ => none
  | .go =>
    match pc with
    | .peers [] => some (p, .idle)
    | .peers (peer :: rest) =>
      if peer.id = worker.id then some (p, .find worker (.peers rest)) else none
    | _ => none
  | _ => none

/-- An operation that an idle thread begins, with its first step. -/
def beginStep (p : Pool κ H) (slot : Slot) : PoolLabel κ H → Option (Pool κ H × PoolPc κ H)
  | .inject core task => some (p.recordInjected task, .inject core task none)
  | .handOff core task => some (match tryPushLocal (p.recordInjected task) slot task with
    | some p' => (p', .idle)
    | none => (p.recordInjected task, .inject core task none))
  | .tryPushLocal task => some (match tryPushLocal (p.recordInjected task) slot task with
    | some p' => (p', .idle)
    | none => (p, .idle))
  | .fetch core source ch => some (match p.fetch slot ch source with
    | (p', .success task) => (p'.recordReturned core task, .idle)
    | (p', _) => (p', .idle))
  | .findTask worker =>
    if worker ∈ p.handles then
      let tick := p.tick worker.deque
      some ({ p with tick := Function.update p.tick worker.deque ((tick + 1) % 2 ^ 64) },
        .find worker (if tick % 64 = 0 then .injectorFirst else .localDeque))
    else none
  | .newWorker core =>
    let (id, registry) := (p.core core).registry.allocateId
    let (worker, p') := (p.setRegistry core registry).newDeque core id
    some (p', .takeAny core id worker)
  | .dropGuard guard =>
    if guard ∈ p.guards then some (p.deregister guard, .takeLocal guard) else none
  | .shutdown core => some (p.setCore core { p.core core with running := false }, .idle)
  | _ => none

/-- One step of a thread. -/
def poolStep (p : Pool κ H) (t : PoolThread κ H) (a : PoolLabel κ H) :
    Option (Pool κ H × PoolThread κ H) :=
  match t.pc, a with
  | .idle, a => (beginStep p t.slot a).map fun r => (r.1, ⟨t.slot, r.2⟩)
  | .find worker pc, a => (findTaskStep p t.slot worker pc a).map fun r => (r.1, ⟨t.slot, r.2⟩)
  | .inject core task loop, .go => some (match tryPushLocal p t.slot task with
    | some p' => (p', ⟨t.slot, afterInject loop⟩)
    | none => (p, ⟨t.slot, .push core task loop⟩))
  | .push core task loop, .go => some (p.pushInjector core task, ⟨t.slot, afterInject loop⟩)
  | .takeAny core id worker, .go => some (match takeAnyLocalWorker t.slot with
    | (some previous, slot) =>
      (p, ⟨slot, .drain ⟨core, previous, (p.deque previous).length, .install id worker⟩⟩)
    | (none, slot) => (p, ⟨slot, .install core id worker⟩))
  | .drain loop, .go => some (match p.pop loop.deque with
    | (p', .success task) =>
      (p', ⟨t.slot, .inject loop.core task (some { loop with left := loop.left - 1 })⟩)
    | (p', _) => (p'.retire loop.deque, ⟨t.slot, loop.exit⟩))
  | .install core id worker, .go =>
    some (p, ⟨setLocalWorker id worker t.slot, .register core id worker⟩)
  | .register core id worker, .go => some (p.register ⟨core, id, worker⟩, ⟨t.slot, .idle⟩)
  | .takeLocal guard, .go => some (match takeLocalWorker guard.id t.slot with
    | (some worker, slot) =>
      (p, ⟨slot, .drain ⟨guard.core, worker, (p.deque worker).length, .done⟩⟩)
    | (none, slot) => (p, ⟨slot, .idle⟩))
  | _, _ => none

/-- Cores without workers and tasks. -/
def Pool.new : Pool κ H where
  core := fun _ => ⟨[], .new, true⟩
  deque := fun _ => []
  nextDeque := 0
  madeFor := fun _ => none
  retired := 0
  handles := []
  guards := []
  tick := fun _ => 0
  injected := 0
  returned := 0

variable (κ H) (ι : Type) [DecidableEq ι]

/-- The configurations of the pool. -/
abbrev PoolConfig := Machine.Config (Pool κ H) (PoolThread κ H) ι

/-- All interleavings of the operations of the threads `ι` on the pool. -/
def poolMachine : Machine (PoolConfig κ H ι) (ι × PoolLabel κ H) :=
  Machine.threads (fun _ => poolStep) ⟨.new, fun _ => ⟨none, .idle⟩⟩

end

end Hypertile
