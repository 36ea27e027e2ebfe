import Hypertile.Pool.Conservation
import Hypertile.Task.Cell

/-!
# The run loop of the workers

The model of a `Runtime`: the worker threads of `start_workers`, each of which registers, runs
`WorkerHandle::run_loop` until it finds the core stopped, and drops its guard; any number of other
threads; and what a polled future and these other threads do with the runtime: spawn, wake, cancel,
`request_shutdown` and `shutdown`. The operations on the queues are those of the pool, with one
core.

Of a task the runtime keeps the state byte of its cell; `run` claims it, polls and settles it as
`TaskCell::run` does, the poll ending at a moment of its own. A worker that has marked itself idle
goes on after at most 5 ms without an unpark, so marking and parking are left out; so is the balance
of task kinds, which only yields.
-/

namespace Hypertile

/-- A runtime with `n` workers, with the state of each task that was spawned. -/
structure Runtime (n : ℕ) (H : Type) where
  pool : Pool Unit H
  state : H → Option TaskState
  /-- The `tick` of each `WorkerHandle`, a `usize`, which wraps. -/
  tick : Fin n → ℕ
  /-- The workers that no call of `shutdown` has taken to join yet. -/
  workerThreads : List (Fin n)
  /-- The worker threads that have ended. -/
  exited : Fin n → Bool

/-- Where a thread stands when it is not in the middle of an operation of the pool. -/
inductive RuntimePc (n : ℕ) (H : Type) where
  /-- A worker thread, about to call `WorkerHandle::new`. -/
  | start
  /-- About to look whether the core is running. -/
  | check (w : Registration Unit)
  /-- In `find_task`. -/
  | find (w : Registration Unit) (pc : FindPc WorkerEntry)
  /-- About to claim a task that was popped, and then in its poll. -/
  | run (task : H) (resume : RuntimePc n H)
  | poll (task : H) (resume : RuntimePc n H)
  /-- In the drain of the local deque that follows a task, after `count` tasks of it. -/
  | batch (w : Registration Unit) (count : ℕ)
  /-- In the micro-spin, about to try the local deque or the injector. -/
  | spin (w : Registration Unit) (count : ℕ) (injector : Bool)
  /-- About to look at the injector again before it parks. -/
  | doubleCheck (w : Registration Unit)
  /-- Out of the loop, about to drop its guard, and then about to end. -/
  | closing (w : Registration Unit)
  | ending
  | exited
  /-- Not a worker thread. -/
  | outside
  /-- About to hand off a task that it has woken or that has to be queued again. -/
  | enqueue (task : H) (resume : RuntimePc n H)
  /-- In `shutdown`, about to take the worker threads, and joining them. -/
  | takeThreads (resume : RuntimePc n H)
  | join (rest : List (Fin n)) (resume : RuntimePc n H)
  deriving DecidableEq

/-- What is chosen for a thread: its next step, what it does with the runtime, or how its poll
ends. -/
inductive RuntimeAct (H : Type) where
  | go
  /-- The next attempt to get a task. -/
  | attempt (choice : Choice)
  /-- `find_task` starts at this peer. -/
  | victim (peer : ℕ)
  | spawn (task : H)
  | spawnLocal (task : H)
  | wake (task : H)
  | cancel (task : H)
  | requestShutdown
  | shutdown
  /-- The poll ends with a value or a panic. -/
  | ready
  | pending
  deriving DecidableEq

/-- A thread: its slot and the operation of the pool that it is in, and its place in the loop. -/
structure RuntimeThread (n : ℕ) (H : Type) where
  pool : PoolThread Unit H
  pc : RuntimePc n H
  deriving DecidableEq

namespace Runtime

variable {n : ℕ} {H : Type}

/-- `is_running`. -/
def isRunning (s : Runtime n H) : Bool := (s.pool.core ()).running

/-- An attempt to get a task. -/
def fetch (s : Runtime n H) (slot : Slot) (source : Source Unit) (ch : Choice) :
    Runtime n H × Steal H :=
  match s.pool.fetch slot ch source with
  | (pool, .success task) => ({ s with pool := pool.recordReturned () task }, .success task)
  | (pool, r) => ({ s with pool }, r)

variable [DecidableEq H]

/-- Sets the state of a task. -/
def setState (s : Runtime n H) (task : H) (state : TaskState) : Runtime n H :=
  { s with state := Function.update s.state task (some state) }

/-- Begins an operation of the pool, after which the thread goes on at `pc`. -/
def begin (s : Runtime n H) (slot : Slot) (op : PoolLabel Unit H) (pc : RuntimePc n H) :
    Option (Runtime n H × RuntimeThread n H) :=
  (beginStep s.pool slot op).map fun r => ({ s with pool := r.1 }, ⟨⟨slot, r.2⟩, pc⟩)

end Runtime

section
variable {n : ℕ} {H : Type} [DecidableEq H]

/-- What a polled future, and a thread that is no worker, can do with the runtime. -/
def useStep (s : Runtime n H) (slot : Slot) (pc : RuntimePc n H) :
    RuntimeAct H → Option (Runtime n H × RuntimeThread n H)
  | .spawn task =>
    if s.state task = none then (s.setState task .scheduled).begin slot (.inject () task) pc
    else none
  | .spawnLocal task =>
    if s.state task = none then (s.setState task .scheduled).begin slot (.handOff () task) pc
    else none
  | .wake task =>
    match s.state task with
    | some .idle => some (s.setState task .scheduled, ⟨⟨slot, .idle⟩, .enqueue task pc⟩)
    | some .running => some (s.setState task .scheduled, ⟨⟨slot, .idle⟩, pc⟩)
    | some _ => some (s, ⟨⟨slot, .idle⟩, pc⟩)
    | none => none
  | .cancel task =>
    if s.state task = none then none
    else some (s.setState task .completed, ⟨⟨slot, .idle⟩, pc⟩)
  | .requestShutdown => s.begin slot (.shutdown ()) pc
  | .shutdown => s.begin slot (.shutdown ()) (.takeThreads pc)
  | _ => none

/-- How the poll of a task ends. -/
def settleStep (s : Runtime n H) (slot : Slot) (task : H) (resume : RuntimePc n H) :
    RuntimeAct H → Option (Runtime n H × RuntimeThread n H)
  | .ready => some (s.setState task .completed, ⟨⟨slot, .idle⟩, resume⟩)
  | .pending =>
    match s.state task with
    | some .running => some (s.setState task .idle, ⟨⟨slot, .idle⟩, resume⟩)
    | some .scheduled => some (s, ⟨⟨slot, .idle⟩, .enqueue task resume⟩)
    | _ => some (s, ⟨⟨slot, .idle⟩, resume⟩)
  | a => useStep s slot (.poll task resume) a

/-- Where `find_task` goes on when it has no task for the worker. -/
def notFound (w : Registration Unit) : RuntimePc n H := .spin w 0 false

/-- One step of `find_task`. -/
def findStep (s : Runtime n H) (slot : Slot) (w : Registration Unit) (pc : FindPc WorkerEntry) :
    RuntimeAct H → Option (Runtime n H × RuntimeThread n H)
  | .attempt ch => (pc.source w).map fun source =>
    match s.fetch slot source ch with
    | (s', .success task) => (s', ⟨⟨slot, .idle⟩, .run task (.batch w 0)⟩)
    | (s', .empty) => (s', ⟨⟨slot, .idle⟩, .find w pc.onEmpty⟩)
    | (s', .retry) => (s', ⟨⟨slot, .idle⟩, .find w pc.onRetry⟩)
  | .victim peer =>
    match pc with
    | .stealers =>
      let stealers := (s.pool.core ()).registry.stealersCache
      some (s, ⟨⟨slot, .idle⟩, if 1 < stealers.length then
        .find w (.peers (stealers.rotate (peer % stealers.length))) else notFound w⟩)
    | _ => none
  | .go =>
    match pc with
    | .peers [] => some (s, ⟨⟨slot, .idle⟩, notFound w⟩)
    | .peers (peer :: rest) =>
      if peer.id = w.id then some (s, ⟨⟨slot, .idle⟩, .find w (.peers rest)⟩) else none
    | _ => none
  | _ => none

/-- A step of a thread that is between operations of the pool. -/
def programStep {ε : Type} (t : Fin n ⊕ ε) (s : Runtime n H) (slot : Slot) :
    RuntimePc n H → RuntimeAct H → Option (Runtime n H × RuntimeThread n H)
  | .start, .go =>
    s.begin slot (.newWorker ())
      (.check ⟨(), (s.pool.core ()).registry.nextId, s.pool.nextDeque⟩)
  | .check w, .go =>
    match t with
    | .inl i =>
      if s.isRunning then
        some ({ s with tick := Function.update s.tick i ((s.tick i + 1) % 2 ^ 64) },
          ⟨⟨slot, .idle⟩, .find w (if s.tick i % 64 = 0 then .injectorFirst else .localDeque)⟩)
      else some (s, ⟨⟨slot, .idle⟩, .closing w⟩)
    | .inr _ => none
  | .find w pc, a => findStep s slot w pc a
  | .run task resume, .go =>
    if s.state task = some .scheduled then
      some (s.setState task .running, ⟨⟨slot, .idle⟩, .poll task resume⟩)
    else some (s, ⟨⟨slot, .idle⟩, resume⟩)
  | .poll task resume, a => settleStep s slot task resume a
  | .batch w count, .go =>
    if count < 16 then
      match s.fetch slot .local .retry with
      | (s', .success task) => some (s', ⟨⟨slot, .idle⟩, .run task (.batch w (count + 1))⟩)
      | (s', _) => some (s', ⟨⟨slot, .idle⟩, .check w⟩)
    else some (s, ⟨⟨slot, .idle⟩, .check w⟩)
  | .spin w count false, .go =>
    match s.fetch slot .local .retry with
    | (s', .success task) => some (s', ⟨⟨slot, .idle⟩, .run task (.check w)⟩)
    | (s', _) => some (s', ⟨⟨slot, .idle⟩, .spin w count true⟩)
  | .spin w count true, .attempt ch =>
    match s.fetch slot (.injector ()) ch with
    | (s', .success task) => some (s', ⟨⟨slot, .idle⟩, .run task (.check w)⟩)
    | (s', _) =>
      some (s', ⟨⟨slot, .idle⟩,
        if count + 1 < 32 then .spin w (count + 1) false else .doubleCheck w⟩)
  | .doubleCheck w, .attempt ch =>
    match s.fetch slot (.injector ()) ch with
    | (s', .success task) => some (s', ⟨⟨slot, .idle⟩, .run task (.check w)⟩)
    | (s', _) => some (s', ⟨⟨slot, .idle⟩, .check w⟩)
  | .closing w, .go => s.begin slot (.dropGuard w) .ending
  | .ending, .go =>
    match t with
    | .inl i =>
      some ({ s with exited := Function.update s.exited i true }, ⟨⟨slot, .idle⟩, .exited⟩)
    | .inr _ => none
  | .outside, a => useStep s slot .outside a
  | .enqueue task resume, .go => s.begin slot (.handOff () task) resume
  | .takeThreads resume, .go =>
    some ({ s with workerThreads := [] }, ⟨⟨slot, .idle⟩, .join s.workerThreads resume⟩)
  | .join [] resume, .go => some (s, ⟨⟨slot, .idle⟩, resume⟩)
  | .join (i :: rest) resume, .go =>
    match t with
    | .inl j =>
      if i = j ∨ s.exited i then some (s, ⟨⟨slot, .idle⟩, .join rest resume⟩) else none
    | .inr _ => if s.exited i then some (s, ⟨⟨slot, .idle⟩, .join rest resume⟩) else none
  | _, _ => none

/-- A step of a thread: that of the operation of the pool that it is in, or one between two. -/
def runtimeStep {ε : Type} (t : Fin n ⊕ ε) (s : Runtime n H) (l : RuntimeThread n H)
    (a : RuntimeAct H) : Option (Runtime n H × RuntimeThread n H) :=
  if l.pool.pc = .idle then programStep t s l.pool.slot l.pc a
  else if a = .go then
    (poolStep s.pool l.pool .go).map fun r => ({ s with pool := r.1 }, ⟨r.2, l.pc⟩)
  else none

/-- `Runtime::new`: the worker threads are about to register, and nothing is spawned. -/
def runtimeStart (n : ℕ) (H ε : Type) :
    Machine.Config (Runtime n H) (RuntimeThread n H) (Fin n ⊕ ε) where
  shared := ⟨.new, fun _ => none, fun _ => 0, List.finRange n, fun _ => false⟩
  loc := Sum.elim (fun _ => ⟨⟨none, .idle⟩, .start⟩) fun _ => ⟨⟨none, .idle⟩, .outside⟩

/-- The configurations of a runtime with `n` workers and the other threads `ε`. -/
abbrev RuntimeConfig (n : ℕ) (H ε : Type) :=
  Machine.Config (Runtime n H) (RuntimeThread n H) (Fin n ⊕ ε)

/-- All interleavings of the workers and the other threads. -/
def runtimeMachine (n : ℕ) (H ε : Type) [DecidableEq H] [DecidableEq ε] :
    Machine (RuntimeConfig n H ε) ((Fin n ⊕ ε) × RuntimeAct H) :=
  .threads runtimeStep (runtimeStart n H ε)

end

end Hypertile
