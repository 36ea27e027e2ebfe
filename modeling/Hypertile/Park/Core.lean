import Hypertile.Pool.Core

/-!
# Parking and waking workers

The model of `WorkerHandle::run_loop` and of the idle bookkeeping of `WorkerRegistry`: any number of
workers that look for tasks, spin, mark themselves idle, check the injector again and park, and any
number of producers that push to the injector and unpark a worker. Producers are no workers, so what
they inject goes to the injector. `park` waits for an unpark token: the 5 ms after which the code
wakes up anyway are left out. No worker is deregistered, the pool is not shut down, and a steal from
the injector gives a task whenever there is one.

The operations on `idle_stack` and those on `idle_count` are steps of their own, so a thread that
reads the counter sees it behind the stack; the lock of the stack is held over both. The counter is
an integer; it does not wrap, being bounded by the number of workers.
-/

namespace Hypertile

/-- What all threads share, for workers `ω` and task handles `H`. -/
structure Parking (ω H : Type) where
  injector : List H
  /-- The local deques of the workers. -/
  deque : ω → List H
  /-- The registered workers. -/
  workers : List ω
  /-- The top is first. -/
  idleStack : List ω
  /-- The lock of `idle_stack` is held. -/
  locked : Bool
  idleCount : ℤ
  /-- The workers whose parker has an unpark token. -/
  token : ω → Bool

/-- Where a worker goes on when a task has been run: to the drain of its local deque, after `n`
tasks of it, or to the head of the loop. -/
inductive AfterRun where
  | drain (n : ℕ)
  | top
  deriving DecidableEq

/-- Where a worker stands. -/
inductive LoopPc (ω H : Type) where
  /-- `WorkerHandle::new`, about to register. -/
  | register
  /-- The head of `run_loop`, about to call `find_task`. -/
  | top
  | find (pc : FindPc ω)
  | run (task : H) (next : AfterRun)
  /-- The drain of the local deque, after `n` of its tasks. -/
  | drain (n : ℕ)
  /-- The spin loop, before and in the middle of its round `n`. -/
  | spin (n : ℕ)
  | spinInjector (n : ℕ)
  /-- `mark_idle`: about to take the lock, and about to count. -/
  | mark
  | markCount
  /-- The second look at the injector. -/
  | recheck
  | park
  /-- `unmark_idle`: about to take the lock, and about to count; then the task is run, if any. -/
  | unmark (task : Option H)
  | unmarkCount (removed : ℕ) (task : Option H)
  deriving DecidableEq

/-- Where a producer stands. -/
inductive ProducerPc (ω H : Type) where
  | idle
  /-- `inject`, about to push to the injector. -/
  | push (task : H)
  /-- `unpark_one_idle`: about to read the counter, to pop, to count, to look the worker up, and to
  unpark it. -/
  | load
  | pop
  | popCount (worker : ω)
  | lookup (worker : ω)
  | unpark (worker : ω)
  deriving DecidableEq

/-- A worker, with the ticks of its `find_task`, or a producer. -/
inductive ParkThread (ω H : Type) where
  | worker (tick : ℕ) (pc : LoopPc ω H)
  | producer (pc : ProducerPc ω H)
  deriving DecidableEq

/-- What is chosen for a thread. -/
inductive ParkLabel (H : Type) where
  | go
  /-- A steal moves a batch. -/
  | attempt (choice : Choice)
  /-- `find_task` starts at this peer. -/
  | start (victim : ℕ)
  /-- The task that is run spawns or wakes a task, which goes to the local deque. -/
  | spawn (task : H)
  /-- The task that is run returns. -/
  | finish
  | inject (task : H)
  | unparkOneIdle
  deriving DecidableEq

section
variable {ω H : Type} [DecidableEq ω]

namespace Parking

/-- Sets the contents of a local deque. -/
def setDeque (s : Parking ω H) (w : ω) (tasks : List H) : Parking ω H :=
  { s with deque := Function.update s.deque w tasks }

/-- `steal_injector_into_local`, which is never retried. -/
def stealInjector (s : Parking ω H) (w : ω) : Choice → Option (Parking ω H × Steal H)
  | .retry => none
  | .batch n => some (match s.injector with
    | [] => (s, .empty)
    | task :: rest =>
      ({ s with injector := rest.drop n }.setDeque w (s.deque w ++ rest.take n), .success task))

/-- `local_pop`. -/
def localPop (s : Parking ω H) (w : ω) : Parking ω H × Steal H :=
  match s.deque w with
  | [] => (s, .empty)
  | task :: rest => (s.setDeque w rest, .success task)

/-- `steal_into_local` from the deque of another worker. -/
def stealPeer (s : Parking ω H) (w peer : ω) : Choice → Parking ω H × Steal H
  | .retry => (s, .retry)
  | .batch n =>
    match s.deque peer with
    | [] => (s, .empty)
    | task :: rest =>
      ((s.setDeque peer (rest.drop n)).setDeque w (s.deque w ++ rest.take n), .success task)

/-- One attempt of `find_task` to get a task; none at the worker itself among its peers. -/
def attempt (s : Parking ω H) (w : ω) (ch : Choice) : FindPc ω → Option (Parking ω H × Steal H)
  | .injectorFirst | .injector | .injectorAgain => s.stealInjector w ch
  | .localDeque => some (s.localPop w)
  | .peers (peer :: _) => if peer = w then none else some (s.stealPeer w peer ch)
  | .peerAgain peer _ => some (s.stealPeer w peer ch)
  | .stealers | .peers [] => none

/-- `mark_idle`, under the lock; the counter follows. -/
def markIdle (s : Parking ω H) (w : ω) : Parking ω H × LoopPc ω H :=
  if w ∈ s.idleStack then (s, .recheck)
  else ({ s with idleStack := w :: s.idleStack, locked := true }, .markCount)

end Parking

/-- Where a worker goes on after a task. -/
def AfterRun.pc : AfterRun → LoopPc ω H
  | .drain n => .drain n
  | .top => .top

/-- Where a worker goes on after `unmark_idle`. -/
def afterUnmark : Option H → LoopPc ω H
  | some task => .run task .top
  | none => .top

/-- `unmark_idle`, under the lock; the counter follows. -/
def Parking.unmarkIdle (s : Parking ω H) (w : ω) (task : Option H) : Parking ω H × LoopPc ω H :=
  let idle := s.idleStack.filter (· ≠ w)
  let removed := s.idleStack.length - idle.length
  if 0 < removed then ({ s with idleStack := idle, locked := true }, .unmarkCount removed task)
  else (s, afterUnmark task)

/-- One step of `run_loop` from a place other than its head. -/
def loopStep (s : Parking ω H) (w : ω) :
    LoopPc ω H → ParkLabel H → Option (Parking ω H × LoopPc ω H)
  | .register, .go => some ({ s with workers := w :: s.workers }, .top)
  | .find pc, .attempt ch => (s.attempt w ch pc).map fun
    | (s', .success task) => (s', .run task (.drain 0))
    | (s', .empty) => (s', .find pc.onEmpty)
    | (s', .retry) => (s', .find pc.onRetry)
  | .find .stealers, .start victim => some (s, if 1 < s.workers.length then
      .find (.peers (s.workers.rotate (victim % s.workers.length))) else .spin 0)
  | .find (.peers []), .go => some (s, .spin 0)
  | .find (.peers (peer :: rest)), .go =>
    if peer = w then some (s, .find (.peers rest)) else none
  | .run task next, .spawn new => some (s.setDeque w (s.deque w ++ [new]), .run task next)
  | .run _ next, .finish => some (s, next.pc)
  | .drain n, .go => some (if n < 16 then
      match s.localPop w with
      | (s', .success task) => (s', .run task (.drain (n + 1)))
      | (s', _) => (s', .top)
    else (s, .top))
  | .spin n, .go => some (if n < 32 then
      match s.localPop w with
      | (s', .success task) => (s', .run task .top)
      | (s', _) => (s', .spinInjector n)
    else (s, .mark))
  | .spinInjector n, .attempt ch => (s.stealInjector w ch).map fun
    | (s', .success task) => (s', .run task .top)
    | (s', _) => (s', .spin (n + 1))
  | .mark, .go => if s.locked then none else some (s.markIdle w)
  | .markCount, .go => some ({ s with idleCount := s.idleCount + 1, locked := false }, .recheck)
  | .recheck, .attempt ch => (s.stealInjector w ch).map fun
    | (s', .success task) => (s', .unmark (some task))
    | (s', _) => (s', .park)
  | .park, .go =>
    if s.token w then some ({ s with token := Function.update s.token w false }, .unmark none)
    else none
  | .unmark task, .go => if s.locked then none else some (s.unmarkIdle w task)
  | .unmarkCount removed task, .go =>
    some ({ s with idleCount := s.idleCount - removed, locked := false }, afterUnmark task)
  | _, _ => none

/-- One step of a producer: `inject`, or `unpark_one_idle` on its own. -/
def producerStep (s : Parking ω H) :
    ProducerPc ω H → ParkLabel H → Option (Parking ω H × ProducerPc ω H)
  | .idle, .inject task => some (s, .push task)
  | .idle, .unparkOneIdle => some (s, .load)
  | .push task, .go => some ({ s with injector := s.injector ++ [task] }, .load)
  | .load, .go => some (s, if s.idleCount = 0 then .idle else .pop)
  | .pop, .go =>
    if s.locked then none
    else some (match s.idleStack with
      | [] => (s, .idle)
      | w :: rest => ({ s with idleStack := rest, locked := true }, .popCount w))
  | .popCount w, .go =>
    some ({ s with idleCount := s.idleCount - 1, locked := false }, .lookup w)
  | .lookup w, .go => some (s, if w ∈ s.workers then .unpark w else .pop)
  | .unpark w, .go => some ({ s with token := Function.update s.token w true }, .idle)
  | _, _ => none

variable {π : Type}

/-- One step of a thread, a worker of `ω` or a producer of `π`. -/
def parkStep : ω ⊕ π → Parking ω H → ParkThread ω H → ParkLabel H →
    Option (Parking ω H × ParkThread ω H)
  | .inl _, s, .worker tick .top, .go =>
    some (s, .worker (tick + 1) (.find (if tick % 64 = 0 then .injectorFirst else .localDeque)))
  | .inl w, s, .worker tick pc, a => (loopStep s w pc a).map fun r => (r.1, .worker tick r.2)
  | .inr _, s, .producer pc, a => (producerStep s pc a).map fun r => (r.1, .producer r.2)
  | _, _, _, _ => none

/-- No tasks and no workers yet. -/
def Parking.new : Parking ω H where
  injector := []
  deque := fun _ => []
  workers := []
  idleStack := []
  locked := false
  idleCount := 0
  token := fun _ => false

variable (ω H π) [DecidableEq π]

/-- The configurations of the workers `ω` and the producers `π`. -/
abbrev ParkConfig := Machine.Config (Parking ω H) (ParkThread ω H) (ω ⊕ π)

/-- All interleavings of the workers `ω` and the producers `π`, from a pool in which the workers are
about to register. -/
def parkMachine : Machine (ParkConfig ω H π) ((ω ⊕ π) × ParkLabel H) :=
  Machine.threads parkStep
    ⟨.new, Sum.elim (fun _ => .worker 0 .register) fun _ => .producer .idle⟩

end

end Hypertile
