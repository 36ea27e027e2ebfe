import Hypertile.Pool.Conservation

/-!
# Worker affinity

The model of a pool whose workers have a kind: any number of threads that register workers, queue
tasks, and call `run_loop`, `run_until_idle` or `run_one` of a worker, with one core. The threads of
`start_workers` are threads that register a worker as native and call its `run_loop`. `run` of a
task is code of the user and can do what a thread outside of these methods can do, the calls
included, so that a thread has a stack of calls. The operations on the queues are those of the pool.

The kind of a worker is read in one place: `run_loop` keeps account of the kinds of the tasks that
`find_task` gave to a bilingual worker (`Budget.account`). No place that gets a task looks at it, so
a worker of any kind runs any task (`reaches_run`), and a pool keeps its native workers from running
Python tasks exactly if it has no native worker or no Python task. As marking and parking move no
task, they are left out, as is the yield of a worker beyond its budget.
-/

namespace Hypertile.Affinity

open Machine Machine.Threads

/-- `TaskKind`. -/
inductive TaskKind where
  | rust
  | python
  deriving DecidableEq

/-- `WorkerKind`. -/
inductive WorkerKind where
  | native
  | bilingual
  deriving DecidableEq

/-- The counters of `run_loop`. -/
structure Budget where
  consecutiveRust : ℕ
  consecutivePython : ℕ
  deriving DecidableEq

/-- `TASK_BUDGET`. -/
def taskBudget : ℕ := 32

/-- How `run_loop` accounts for a task that `find_task` has given it. -/
def Budget.account (b : Budget) (kind : WorkerKind) (task : TaskKind) : Budget :=
  if kind = .bilingual then
    let b' : Budget := match task with
      | .rust => ⟨b.consecutiveRust + 1, 0⟩
      | .python => ⟨0, b.consecutivePython + 1⟩
    -- beyond the budget the thread yields
    if taskBudget < b'.consecutiveRust ∨ taskBudget < b'.consecutivePython then ⟨0, 0⟩ else b'
  else b

/-- The methods of a worker that run tasks. -/
inductive Method where
  | runLoop (b : Budget)
  | runUntilIdle
  | runOne
  deriving DecidableEq

/-- Where a call of one of the methods stands. -/
inductive WorkerPc (H : Type) where
  /-- About to look whether the core is running, in `run_loop`, and to call `find_task`. -/
  | begin (m : Method)
  /-- In `find_task`. -/
  | find (m : Method) (pc : FindPc WorkerEntry)
  /-- In `run` of a task, after which the call goes on at `resume`. -/
  | run (task : H) (resume : WorkerPc H)
  /-- In the drain of the local deque that follows a task, after `count` tasks of it. -/
  | batch (b : Budget) (count : ℕ)
  /-- In the micro-spin, about to try the local deque or the injector. -/
  | spin (b : Budget) (count : ℕ) (injector : Bool)
  /-- About to look at the injector again before it parks. -/
  | doubleCheck (b : Budget)
  | leave
  deriving DecidableEq

/-- A call of a method of a worker. -/
structure Call (H : Type) where
  worker : Registration Unit
  kind : WorkerKind
  pc : WorkerPc H
  deriving DecidableEq

/-- A thread: its slot and the operation of the pool that it is in, and the calls it is in, the
innermost first. -/
structure WorkerThread (H : Type) where
  pool : PoolThread Unit H
  calls : List (Call H)
  deriving DecidableEq

/-- What all threads share: the pool, and of each `WorkerHandle`, by the deque that was made for it,
its kind and its `tick`, a `usize`, which wraps. -/
structure KindedPool (H : Type) where
  pool : Pool Unit H
  kind : DequeId → Option WorkerKind
  tick : DequeId → ℕ

/-- What is chosen for a thread: its next step, or what the code of the user does. -/
inductive WorkerAct (H : Type) where
  | go
  /-- The next attempt to get a task. -/
  | attempt (choice : Choice)
  /-- `find_task` starts at this peer. -/
  | victim (peer : ℕ)
  | inject (task : H)
  /-- `try_push_local` and `inject` of what it hands back. -/
  | handOff (task : H)
  /-- `register_worker`. -/
  | register (kind : WorkerKind)
  | dropGuard (guard : Registration Unit)
  | shutdown
  | runLoop (w : Registration Unit)
  | runUntilIdle (w : Registration Unit)
  | runOne (w : Registration Unit)
  /-- `run` of a task returns. -/
  | done
  deriving DecidableEq

section
variable {H : Type}

/-- `is_running`. -/
def KindedPool.isRunning (s : KindedPool H) : Bool := (s.pool.core ()).running

/-- An attempt to get a task. -/
def KindedPool.fetch (s : KindedPool H) (slot : Slot) (source : Source Unit) (ch : Choice) :
    KindedPool H × Steal H :=
  match s.pool.fetch slot ch source with
  | (pool, .success task) => ({ s with pool := pool.recordReturned () task }, .success task)
  | (pool, r) => ({ s with pool }, r)

/-- An attempt to get a task: the task is run, and then the call goes on at `resume`, or it goes on
at `otherwise`. -/
def KindedPool.attempt (s : KindedPool H) (slot : Slot) (source : Source Unit) (ch : Choice)
    (resume otherwise : WorkerPc H) : KindedPool H × WorkerPc H :=
  match s.fetch slot source ch with
  | (s', .success task) => (s', .run task resume)
  | (s', _) => (s', otherwise)

/-- Where a call goes on with a task that `find_task` returned. -/
def Method.found (m : Method) (kind : WorkerKind) (task : H) (k : TaskKind) : WorkerPc H :=
  match m with
  | .runLoop b => .run task (.batch (b.account kind k) 0)
  | .runUntilIdle => .run task (.begin .runUntilIdle)
  | .runOne => .run task .leave

/-- Where a call goes on when `find_task` returned no task. -/
def Method.notFound : Method → WorkerPc H
  | .runLoop b => .spin b 0 false
  | .runUntilIdle | .runOne => .leave

variable (taskKind : H → TaskKind)

/-- One step of `find_task`. -/
def findStep (s : KindedPool H) (slot : Slot) (w : Registration Unit) (kind : WorkerKind)
    (m : Method) (pc : FindPc WorkerEntry) : WorkerAct H → Option (KindedPool H × WorkerPc H)
  | .attempt ch => (pc.source w).map fun source =>
    match s.fetch slot source ch with
    | (s', .success task) => (s', m.found kind task (taskKind task))
    | (s', .empty) => (s', .find m pc.onEmpty)
    | (s', .retry) => (s', .find m pc.onRetry)
  | .victim peer =>
    match pc with
    | .stealers =>
      let stealers := (s.pool.core ()).registry.stealersCache
      some (s, if 1 < stealers.length then
        .find m (.peers (stealers.rotate (peer % stealers.length))) else m.notFound)
    | _ => none
  | .go =>
    match pc with
    | .peers [] => some (s, m.notFound)
    | .peers (peer :: rest) => if peer.id = w.id then some (s, .find m (.peers rest)) else none
    | _ => none
  | _ => none

/-- A step of a call that is not in `run` of a task. -/
def callStep (s : KindedPool H) (slot : Slot) (w : Registration Unit) (kind : WorkerKind) :
    WorkerPc H → WorkerAct H → Option (KindedPool H × WorkerPc H)
  | .begin m, .go =>
    let first : WorkerPc H :=
      .find m (if s.tick w.deque % 64 = 0 then .injectorFirst else .localDeque)
    let s' := { s with tick := Function.update s.tick w.deque ((s.tick w.deque + 1) % 2 ^ 64) }
    match m with
    | .runLoop _ => some (if s.isRunning then (s', first) else (s, .leave))
    | .runUntilIdle | .runOne => some (s', first)
  | .find m pc, a => findStep taskKind s slot w kind m pc a
  | .batch b count, .go => some <|
    if count < 16 then s.attempt slot .local .retry (.batch b (count + 1)) (.begin (.runLoop b))
    else (s, .begin (.runLoop b))
  | .spin b count false, .go =>
    some (s.attempt slot .local .retry (.begin (.runLoop b)) (.spin b count true))
  | .spin b count true, .attempt ch =>
    some (s.attempt slot (.injector ()) ch (.begin (.runLoop b))
      (if count + 1 < 32 then .spin b (count + 1) false else .doubleCheck b))
  | .doubleCheck b, .attempt ch =>
    some (s.attempt slot (.injector ()) ch (.begin (.runLoop b)) (.begin (.runLoop b)))
  | _, _ => none

/-- Begins an operation of the pool. -/
def KindedPool.begin (s : KindedPool H) (l : WorkerThread H) (op : PoolLabel Unit H) :
    Option (KindedPool H × WorkerThread H) :=
  (beginStep s.pool l.pool.slot op).map fun r =>
    ({ s with pool := r.1 }, ⟨⟨l.pool.slot, r.2⟩, l.calls⟩)

/-- Calls a method of a worker. -/
def KindedPool.call (s : KindedPool H) (l : WorkerThread H) (w : Registration Unit) (m : Method) :
    Option (KindedPool H × WorkerThread H) :=
  if w ∈ s.pool.handles then
    (s.kind w.deque).map fun kind => (s, ⟨l.pool, ⟨w, kind, .begin m⟩ :: l.calls⟩)
  else none

/-- What the code of the user can do. -/
def userStep (s : KindedPool H) (l : WorkerThread H) :
    WorkerAct H → Option (KindedPool H × WorkerThread H)
  | .inject task => s.begin l (.inject () task)
  | .handOff task => s.begin l (.handOff () task)
  | .register kind =>
    { s with kind := Function.update s.kind s.pool.nextDeque (some kind) }.begin l (.newWorker ())
  | .dropGuard guard => s.begin l (.dropGuard guard)
  | .shutdown => s.begin l (.shutdown ())
  | .runLoop w => s.call l w (.runLoop ⟨0, 0⟩)
  | .runUntilIdle w => s.call l w .runUntilIdle
  | .runOne w => s.call l w .runOne
  | _ => none

/-- A step of a thread that is between operations of the pool. -/
def programStep (s : KindedPool H) (l : WorkerThread H) (a : WorkerAct H) :
    Option (KindedPool H × WorkerThread H) :=
  match l.calls with
  | [] => userStep s l a
  | call :: rest =>
    match call.pc with
    | .run _ resume =>
      match a with
      | .done => some (s, ⟨l.pool, { call with pc := resume } :: rest⟩)
      | a => userStep s l a
    | .leave =>
      match a with
      | .go => some (s, ⟨l.pool, rest⟩)
      | _ => none
    | pc => (callStep taskKind s l.pool.slot call.worker call.kind pc a).map fun r =>
        (r.1, ⟨l.pool, { call with pc := r.2 } :: rest⟩)

/-- A step of a thread: that of the operation of the pool that it is in, or one between two. -/
def workerStep (s : KindedPool H) (l : WorkerThread H) (a : WorkerAct H) :
    Option (KindedPool H × WorkerThread H) :=
  match l.pool.pc with
  | .idle => programStep taskKind s l a
  | _ =>
    match a with
    | .go => (poolStep s.pool l.pool .go).map fun r => ({ s with pool := r.1 }, ⟨r.2, l.calls⟩)
    | _ => none

variable (ι : Type) [DecidableEq ι]

/-- The configurations of a pool and its threads. -/
abbrev WorkerConfig (H ι : Type) := Config (KindedPool H) (WorkerThread H) ι

/-- No worker is registered and nothing is queued. -/
def start (H ι : Type) : WorkerConfig H ι :=
  ⟨⟨.new, fun _ => none, fun _ => 0⟩, fun _ => ⟨⟨none, .idle⟩, []⟩⟩

/-- All interleavings of the threads. -/
def affinityMachine : Machine (WorkerConfig H ι) (ι × WorkerAct H) :=
  .threads (fun _ => workerStep taskKind) (start H ι)

end

/-! ## The steps -/

/-- The tasks that a call is running. -/
def WorkerPc.tasks {H : Type} : WorkerPc H → List H
  | .run task resume => task :: resume.tasks
  | _ => []

/-- The task that an action queues. -/
def WorkerAct.queues {H : Type} : WorkerAct H → Option H
  | .inject task | .handOff task => some task
  | _ => none

/-- The kind of the worker that an action registers. -/
def WorkerAct.registers {H : Type} : WorkerAct H → Option WorkerKind
  | .register kind => some kind
  | _ => none

/-- The task that an operation of the pool injects. -/
def injects {H : Type} : PoolLabel Unit H → Option H
  | .inject _ task | .handOff _ task | .tryPushLocal task => some task
  | _ => none

/-- `WorkerTrans s l a s' l'`: a thread at `l` can take the step `a` from the shared state `s`, to
`s'` and `l'`. -/
inductive WorkerTrans {H : Type} (s : KindedPool H) (l : WorkerThread H) (a : WorkerAct H) :
    KindedPool H → WorkerThread H → Prop
  | operate {op : PoolLabel Unit H} {p' : Pool Unit H} {u : PoolThread Unit H}
      (hp : poolStep s.pool l.pool op = some (p', u)) (hop : injects op = a.queues) :
      WorkerTrans s l a { s with pool := p' } ⟨u, l.calls⟩
  | register {kind : WorkerKind} {p' : Pool Unit H} {u : PoolThread Unit H}
      (hp : poolStep s.pool l.pool (.newWorker ()) = some (p', u)) (ha : a.registers = some kind) :
      WorkerTrans s l a
        { s with pool := p', kind := Function.update s.kind s.pool.nextDeque (some kind) }
        ⟨u, l.calls⟩
  | fetch {op : PoolLabel Unit H} {p' : Pool Unit H} {call : Call H} {rest : List (Call H)}
      {pc : WorkerPc H} (hp : poolStep s.pool l.pool op = some (p', l.pool))
      (hop : injects op = none)
      (hcalls : l.calls = call :: rest) (hpc : ∀ task ∈ pc.tasks, ((), task) ∈ p'.returned) :
      WorkerTrans s l a { s with pool := p' } ⟨l.pool, { call with pc := pc } :: rest⟩
  | move {n : DequeId → ℕ} {call : Call H} {rest : List (Call H)} {pc : WorkerPc H}
      (hcalls : l.calls = call :: rest) (hpc : pc.tasks ⊆ call.pc.tasks) :
      WorkerTrans s l a { s with tick := n } ⟨l.pool, { call with pc := pc } :: rest⟩
  | call {w : Registration Unit} {kind : WorkerKind} {m : Method}
      (hkind : s.kind w.deque = some kind) :
      WorkerTrans s l a s ⟨l.pool, ⟨w, kind, .begin m⟩ :: l.calls⟩
  | leave {call : Call H} {rest : List (Call H)} (hcalls : l.calls = call :: rest) :
      WorkerTrans s l a s ⟨l.pool, rest⟩

section
variable {H : Type} {taskKind : H → TaskKind} {s s' : KindedPool H} {l l' : WorkerThread H}
  {a : WorkerAct H} {slot : Slot} {w : Registration Unit} {kind : WorkerKind} {pc pc' : WorkerPc H}

/-- An attempt to get a task is one of the pool, and what it gives is recorded as returned. -/
theorem KindedPool.fetch_eq {source : Source Unit} {ch : Choice} {r : Steal H}
    (h : s.fetch slot source ch = (s', r)) : ∃ p', s' = { s with pool := p' } ∧
      poolStep s.pool ⟨slot, .idle⟩ (.fetch () source ch) = some (p', ⟨slot, .idle⟩) ∧
      ∀ task, r = .success task → ((), task) ∈ p'.returned := by
  unfold KindedPool.fetch at h
  cases hf : s.pool.fetch slot ch source with
  | mk p' r' =>
    rw [hf] at h
    cases r' with
    | success task =>
      cases h
      refine ⟨p'.recordReturned () task, rfl, by simp [poolStep, beginStep, hf], ?_⟩
      rintro _ ⟨⟩
      simp [Pool.recordReturned]
    | empty | retry =>
      cases h
      exact ⟨p', rfl, by simp [poolStep, beginStep, hf], by simp⟩

/-- Where a call goes on with a task, it runs this task. -/
@[simp] theorem Method.tasks_found (m : Method) (task : H) (k : TaskKind) :
    (m.found kind task k).tasks = [task] := by
  cases m <;> rfl

/-- Where a call goes on without a task, it runs none. -/
@[simp] theorem Method.tasks_notFound (m : Method) : (m.notFound : WorkerPc H).tasks = [] := by
  cases m <;> rfl

/-- What a step of a call can do: an attempt to get a task, after which the call runs a task only if
the attempt gave it, or a step that gives it none. -/
inductive CallTrans (s : KindedPool H) (slot : Slot) : KindedPool H → WorkerPc H → Prop
  | fetch {source : Source Unit} {ch : Choice} {p' : Pool Unit H} {pc : WorkerPc H}
      (hp : poolStep s.pool ⟨slot, .idle⟩ (.fetch () source ch) = some (p', ⟨slot, .idle⟩))
      (hpc : ∀ task ∈ pc.tasks, ((), task) ∈ p'.returned) :
      CallTrans s slot { s with pool := p' } pc
  | move {n : DequeId → ℕ} {pc : WorkerPc H} (hpc : pc.tasks = []) :
      CallTrans s slot { s with tick := n } pc

/-- An attempt to get a task, after which the call runs what the attempt gave. -/
theorem KindedPool.fetch_trans {source : Source Unit} {ch : Choice} {r : Steal H}
    (h : s.fetch slot source ch = (s', r)) (hpc : ∀ task ∈ pc.tasks, r = .success task) :
    CallTrans s slot s' pc := by
  obtain ⟨p', rfl, hp, hret⟩ := KindedPool.fetch_eq h
  exact .fetch hp fun task ht => hret task (hpc task ht)

/-- An attempt of a call that has no task to run before or after is one of these. -/
theorem KindedPool.attempt_trans {source : Source Unit} {ch : Choice}
    {resume otherwise : WorkerPc H}
    (hresume : resume.tasks = []) (hother : otherwise.tasks = [])
    (h : s.attempt slot source ch resume otherwise = (s', pc')) : CallTrans s slot s' pc' := by
  unfold KindedPool.attempt at h
  cases hf : s.fetch slot source ch with
  | mk q r =>
    rw [hf] at h
    cases r with
    | success task =>
      cases h
      exact KindedPool.fetch_trans hf (by simp [WorkerPc.tasks, hresume])
    | empty | retry =>
      cases h
      exact KindedPool.fetch_trans hf (by simp [hother])

/-- A step of `find_task` is one of these. -/
theorem findStep_trans {m : Method} {fpc : FindPc WorkerEntry}
    (h : findStep taskKind s slot w kind m fpc a = some (s', pc')) : CallTrans s slot s' pc' := by
  cases a with
  | attempt ch =>
    obtain ⟨source, -, h⟩ := Option.map_eq_some_iff.1 h
    cases hf : s.fetch slot source ch with
    | mk q r =>
      rw [hf] at h
      cases r with
      | success task =>
        cases h
        exact KindedPool.fetch_trans hf (by simp)
      | empty | retry =>
        cases h
        exact KindedPool.fetch_trans hf nofun
  | victim peer =>
    cases fpc with
    | stealers =>
      simp only [findStep, Option.some.injEq, Prod.mk.injEq] at h
      obtain ⟨rfl, rfl⟩ := h
      refine .move (n := s.tick) ?_
      split
      · rfl
      · simp
    | _ => cases h
  | go =>
    cases fpc with
    | peers peers =>
      cases peers with
      | nil =>
        cases h
        exact .move (n := s.tick) (by simp)
      | cons peer rest =>
        simp only [findStep] at h
        split at h
        · cases h
          exact .move (n := s.tick) rfl
        · cases h
    | _ => cases h
  | _ => cases h

/-- What a step of a call does, by its place. -/
inductive CallStepTrans (taskKind : H → TaskKind) (s : KindedPool H) (slot : Slot)
    (w : Registration Unit) (kind : WorkerKind) :
    WorkerPc H → WorkerAct H → KindedPool H → WorkerPc H → Prop
  | begin (m : Method) : CallStepTrans taskKind s slot w kind (.begin m) .go
      { s with tick := Function.update s.tick w.deque ((s.tick w.deque + 1) % 2 ^ 64) }
      (.find m (if s.tick w.deque % 64 = 0 then .injectorFirst else .localDeque))
  | quit (b : Budget) : CallStepTrans taskKind s slot w kind (.begin (.runLoop b)) .go s .leave
  | find {m : Method} {fpc : FindPc WorkerEntry} {a : WorkerAct H} {s' : KindedPool H}
      {pc' : WorkerPc H} (h : findStep taskKind s slot w kind m fpc a = some (s', pc')) :
      CallStepTrans taskKind s slot w kind (.find m fpc) a s' pc'
  | drain {b : Budget} {count : ℕ} {s' : KindedPool H} {pc' : WorkerPc H} (hcount : count < 16)
      (h : s.attempt slot .local .retry (.batch b (count + 1)) (.begin (.runLoop b)) = (s', pc')) :
      CallStepTrans taskKind s slot w kind (.batch b count) .go s' pc'
  | drained (b : Budget) (count : ℕ) :
      CallStepTrans taskKind s slot w kind (.batch b count) .go s (.begin (.runLoop b))
  | spinLocal {b : Budget} {count : ℕ} {s' : KindedPool H} {pc' : WorkerPc H}
      (h : s.attempt slot .local .retry (.begin (.runLoop b)) (.spin b count true) = (s', pc')) :
      CallStepTrans taskKind s slot w kind (.spin b count false) .go s' pc'
  | spinInjector {b : Budget} {count : ℕ} {ch : Choice} {s' : KindedPool H} {pc' : WorkerPc H}
      (h : s.attempt slot (.injector ()) ch (.begin (.runLoop b))
        (if count + 1 < 32 then .spin b (count + 1) false else .doubleCheck b) = (s', pc')) :
      CallStepTrans taskKind s slot w kind (.spin b count true) (.attempt ch) s' pc'
  | doubleCheck {b : Budget} {ch : Choice} {s' : KindedPool H} {pc' : WorkerPc H}
      (h : s.attempt slot (.injector ()) ch (.begin (.runLoop b)) (.begin (.runLoop b)) =
        (s', pc')) :
      CallStepTrans taskKind s slot w kind (.doubleCheck b) (.attempt ch) s' pc'

/-- Every step of a call that is not in `run` of a task is one of these. -/
theorem callStep_cases (h : callStep taskKind s slot w kind pc a = some (s', pc')) :
    CallStepTrans taskKind s slot w kind pc a s' pc' := by
  unfold callStep at h
  split at h
  · next m =>
    cases m with
    | runLoop b =>
      simp only [Option.some.injEq] at h
      split at h
      · cases h
        exact .begin _
      · cases h
        exact .quit b
    | runUntilIdle | runOne =>
      cases h
      exact .begin _
  · exact .find h
  · next b count =>
    simp only [Option.some.injEq] at h
    split at h
    · next hcount => exact .drain hcount h
    · cases h
      exact .drained b count
  · exact .spinLocal (Option.some.inj h)
  · exact .spinInjector (Option.some.inj h)
  · exact .doubleCheck (Option.some.inj h)
  · cases h

/-- Such a step is an attempt to get a task, or gives the call none. -/
theorem callStep_trans (h : callStep taskKind s slot w kind pc a = some (s', pc')) :
    CallTrans s slot s' pc' := by
  cases callStep_cases h with
  | begin => exact .move rfl
  | quit | drained => exact .move (n := s.tick) rfl
  | find h => exact findStep_trans h
  | drain _ h | spinLocal h | doubleCheck h => exact KindedPool.attempt_trans rfl rfl h
  | spinInjector h =>
    refine KindedPool.attempt_trans rfl ?_ h
    split
    · rfl
    · rfl

/-- Beginning an operation is a step of the pool. -/
theorem KindedPool.begin_eq {op : PoolLabel Unit H} (hidle : l.pool.pc = .idle)
    (h : s.begin l op = some (s', l')) : ∃ p' u, s' = { s with pool := p' } ∧ l' = ⟨u, l.calls⟩ ∧
      poolStep s.pool l.pool op = some (p', u) := by
  obtain ⟨⟨p', pc⟩, hb, he⟩ := Option.map_eq_some_iff.1 h
  cases he
  refine ⟨p', _, rfl, rfl, ?_⟩
  simp [poolStep, hidle, hb]

/-- A call of a method is a step. -/
theorem KindedPool.call_trans {m : Method} (h : s.call l w m = some (s', l')) :
    WorkerTrans s l a s' l' := by
  unfold KindedPool.call at h
  split at h
  · obtain ⟨kind, hkind, he⟩ := Option.map_eq_some_iff.1 h
    cases he
    exact .call hkind
  · cases h

/-- What the code of the user does is one of the steps. -/
theorem userStep_trans (hidle : l.pool.pc = .idle) (h : userStep s l a = some (s', l')) :
    WorkerTrans s l a s' l' := by
  cases a with
  | inject | handOff | dropGuard | shutdown =>
    obtain ⟨p', u, rfl, rfl, hp⟩ := KindedPool.begin_eq hidle h
    exact .operate hp rfl
  | register kind =>
    obtain ⟨p', u, rfl, rfl, hp⟩ := KindedPool.begin_eq hidle h
    exact .register hp rfl
  | runLoop | runUntilIdle | runOne => exact KindedPool.call_trans h
  | _ => cases h

/-- Every step of a thread is one of these. -/
theorem workerStep_trans (h : workerStep taskKind s l a = some (s', l')) :
    WorkerTrans s l a s' l' := by
  unfold workerStep at h
  split at h
  · next hidle =>
    unfold programStep at h
    split at h
    · exact userStep_trans hidle h
    · next call rest hcalls =>
      split at h
      · next task resume hpc =>
        split at h
        · cases h
          exact .move (n := s.tick) hcalls (by simp [hpc, WorkerPc.tasks])
        · exact userStep_trans hidle h
      · split at h
        · cases h
          exact .leave hcalls
        · cases h
      · obtain ⟨⟨q, pc⟩, hstep, he⟩ := Option.map_eq_some_iff.1 h
        cases he
        have hthread : ⟨l.pool.slot, .idle⟩ = l.pool := by rw [← hidle]
        cases callStep_trans hstep with
        | fetch hp hpc =>
          rw [hthread] at hp
          exact .fetch hp rfl hcalls hpc
        | move hpc => exact .move hcalls (by simp [hpc])
  · split at h
    · obtain ⟨⟨p', u⟩, hp, he⟩ := Option.map_eq_some_iff.1 h
      cases he
      exact .operate hp rfl
    · cases h

end

/-! ## The pool of the workers -/

/-- What a step injects into the pool is what it queues. -/
theorem mem_injected {H : Type} {p p' : Pool Unit H} {t t' : PoolThread Unit H}
    {op : PoolLabel Unit H} (h : PoolTrans p t op p' t') {task : H} (ht : task ∈ p'.injected) :
    task ∈ p.injected ∨ injects op = some task := by
  cases h with
  | inject | handOffLocal | handOff | tryPushLocal =>
    rcases Multiset.mem_cons.1 ht with rfl | ht
    · exact .inr rfl
    · exact .inl ht
  | fetch hf | findGot _ hf =>
    left
    rw [← hf.sameWorkers.injected]
    exact ht
  | fetchNone hf | findNext _ hf =>
    left
    rw [← hf.sameWorkers.injected]
    exact ht
  | _ => exact .inl ht

/-- The pool and its threads. -/
def poolConfig {H ι : Type} (c : WorkerConfig H ι) : PoolConfig Unit H ι :=
  c.map KindedPool.pool WorkerThread.pool

section
variable {H ι : Type} [DecidableEq ι] {taskKind : H → TaskKind} {c : WorkerConfig H ι}
  {G : WorkerConfig H ι → ι × WorkerAct H → Prop}

omit [DecidableEq ι] in
/-- A step of a thread is a step of the pool, or moves only the calls. -/
theorem workerStep_simulates : Simulates (fun _ : ι => workerStep taskKind)
    (fun _ (p : Pool Unit H) => poolStep p) KindedPool.pool WorkerThread.pool := by
  intro i s m a s' m' h
  cases workerStep_trans h with
  | operate hop => exact .inr ⟨_, hop⟩
  | register hop => exact .inr ⟨_, hop⟩
  | fetch hop => exact .inr ⟨_, hop⟩
  | move | call | leave => exact .inl ⟨rfl, rfl⟩

/-- The pool of the workers runs as a pool. -/
theorem reachable_pool (h : (affinityMachine taskKind ι).Reachable G c) :
    (poolMachine Unit H ι).Reachable anyStep (poolConfig c) :=
  reach_map workerStep_simulates h

/-! ## Native workers -/

/-- The workers that are registered are of these kinds, and the tasks that are queued of these. -/
def uses (kinds : Set WorkerKind) (tasks : Set H) (_ : WorkerConfig H ι) (a : ι × WorkerAct H) :
    Prop :=
  (∀ kind, a.2.registers = some kind → kind ∈ kinds) ∧ ∀ task, a.2.queues = some task → task ∈ tasks

/-- No native worker is running a Python task. -/
def NativeOnly (taskKind : H → TaskKind) (c : WorkerConfig H ι) : Prop :=
  ∀ i, ∀ call ∈ (c.loc i).calls, call.kind = .native →
    ∀ task ∈ call.pc.tasks, taskKind task ≠ .python

/-- The kinds and the tasks of a state. -/
structure Within (kinds : Set WorkerKind) (tasks : Set H) (c : WorkerConfig H ι) : Prop where
  kind : ∀ d k, c.shared.kind d = some k → k ∈ kinds
  injected : ∀ task ∈ c.shared.pool.injected, task ∈ tasks
  calls : ∀ i, ∀ call ∈ (c.loc i).calls, call.kind ∈ kinds ∧ ∀ task ∈ call.pc.tasks, task ∈ tasks

/-- A task that was returned was injected. -/
theorem injected_of_returned [Fintype ι] {c : PoolConfig Unit H ι}
    (h : (poolMachine Unit H ι).Reachable anyStep c) {task : H}
    (ht : ((), task) ∈ c.shared.returned) : task ∈ c.shared.injected := by
  rw [← reachable_tasks h, total, Pool.accounted]
  refine Multiset.mem_add.2 (.inl (Multiset.mem_add.2 (.inr ?_)))
  exact Multiset.mem_map.2 ⟨_, ht, rfl⟩

/-- A step keeps the kinds and the tasks that are used. -/
theorem Within.step [Fintype ι] {kinds : Set WorkerKind} {tasks : Set H} {i : ι} {a : WorkerAct H}
    {s' : KindedPool H} {l' : WorkerThread H} (hI : Within kinds tasks c)
    (hc : (poolMachine Unit H ι).Reachable anyStep (poolConfig c))
    (huse : uses kinds tasks c (i, a))
    (h : WorkerTrans c.shared (c.loc i) a s' l') :
    Within kinds tasks ⟨s', Function.update c.loc i l'⟩ := by
  have hcalls : (∀ call ∈ l'.calls, call.kind ∈ kinds ∧ ∀ task ∈ call.pc.tasks, task ∈ tasks) →
      ∀ j, ∀ call ∈ (Function.update c.loc i l' j).calls,
        call.kind ∈ kinds ∧ ∀ task ∈ call.pc.tasks, task ∈ tasks := fun hown =>
    (Function.forall_update_iff c.loc fun _ (l : WorkerThread H) => ∀ call ∈ l.calls,
      call.kind ∈ kinds ∧ ∀ task ∈ call.pc.tasks, task ∈ tasks).2 ⟨hown, fun j _ => hI.calls j⟩
  have hnext : ∀ {op p' u}, poolStep c.shared.pool (c.loc i).pool op = some (p', u) →
      (injects op = none ∨ injects op = a.queues) → ∀ task ∈ p'.injected, task ∈ tasks := by
    intro op p' u hop hinj task ht
    rcases mem_injected (poolStep_trans hop) ht with ht | ht
    · exact hI.injected task ht
    · rcases hinj with hinj | hinj
      · rw [hinj] at ht
        cases ht
      · exact huse.2 task (hinj.symm.trans ht)
  cases h with
  | operate hop hinj => exact ⟨hI.kind, hnext hop (.inr hinj), hcalls (hI.calls i)⟩
  | register hop hkind =>
    refine ⟨fun d k hd => ?_, hnext hop (.inl rfl), hcalls (hI.calls i)⟩
    simp only [Function.update_apply] at hd
    split at hd
    · cases hd
      exact huse.1 _ hkind
    · exact hI.kind d k hd
  | @fetch op p' call rest pc hop hinj hown hpc =>
    have hinjected := hnext hop (.inl hinj)
    refine ⟨hI.kind, hinjected, hcalls ?_⟩
    have hmem := hI.calls i
    rw [hown, List.forall_mem_cons] at hmem
    refine List.forall_mem_cons.2 ⟨⟨hmem.1.1, fun task ht => hinjected task ?_⟩, hmem.2⟩
    have hstep : (poolMachine Unit H ι).Reachable anyStep
        ⟨p', Function.update (poolConfig c).loc i (c.loc i).pool⟩ :=
      .tail (a := (i, op)) hc trivial (step_iff.2 ⟨p', (c.loc i).pool, hop, rfl⟩)
    exact injected_of_returned hstep (hpc task ht)
  | move hown hpc =>
    refine ⟨hI.kind, hI.injected, hcalls ?_⟩
    have hmem := hI.calls i
    rw [hown, List.forall_mem_cons] at hmem
    exact List.forall_mem_cons.2 ⟨⟨hmem.1.1, fun task ht => hmem.1.2 task (hpc ht)⟩, hmem.2⟩
  | call hkind =>
    exact ⟨hI.kind, hI.injected, hcalls (List.forall_mem_cons.2 ⟨⟨hI.kind _ _ hkind, nofun⟩,
      hI.calls i⟩)⟩
  | leave hown =>
    refine ⟨hI.kind, hI.injected, hcalls ?_⟩
    have hmem := hI.calls i
    rw [hown, List.forall_mem_cons] at hmem
    exact hmem.2

/-- A run uses no other kinds and tasks. -/
theorem reachable_within [Fintype ι] {kinds : Set WorkerKind} {tasks : Set H}
    (h : (affinityMachine taskKind ι).Reachable (uses kinds tasks) c) : Within kinds tasks c := by
  refine Threads.invariant (J := fun c => (poolMachine Unit H ι).Reachable anyStep (poolConfig c)) h
    (fun _ h => reachable_pool h) ⟨nofun, fun _ ht => ?_, fun _ => nofun⟩ ?_
  · simp [start, Pool.new] at ht
  · rintro c i a s' _ l' hc hI huse rfl hst
    exact hI.step hc huse (workerStep_trans hst)

/-- A thread that registers a worker, queues a task and runs one. -/
def registerAndRun (kind : WorkerKind) (task : H) : List (WorkerAct H) :=
  [.register kind, .go, .go, .go, .handOff task, .runOne ⟨(), 1, 0⟩, .go, .attempt (.batch 0),
    .attempt (.batch 0)]

/-- A worker of any kind runs any task. -/
theorem reaches_run (taskKind : H → TaskKind) {kinds : Set WorkerKind} {tasks : Set H} (i : ι)
    {kind : WorkerKind} {task : H} (hkind : kind ∈ kinds) (htask : task ∈ tasks) :
    ∃ c, (affinityMachine taskKind ι).Reachable (uses kinds tasks) c ∧
      (c.loc i).calls = [⟨⟨(), 1, 0⟩, kind, .run task .leave⟩] := by
  have huses : ∀ c : WorkerConfig H ι, ∀ a ∈ registerAndRun kind task,
      uses kinds tasks c (i, a) := by
    intro c a ha
    simp only [registerAndRun, List.mem_cons, List.not_mem_nil, or_false] at ha
    rcases ha with rfl | rfl | rfl | rfl | rfl | rfl | rfl | rfl | rfl <;>
      simp [uses, WorkerAct.registers, WorkerAct.queues, hkind, htask]
  have hreplay : ∃ s' u, replay (workerStep taskKind) (start H ι).shared ⟨⟨none, .idle⟩, []⟩
      (registerAndRun kind task) = some (s', ⟨u, [⟨⟨(), 1, 0⟩, kind, .run task .leave⟩]⟩) :=
    ⟨_, _, rfl⟩
  obtain ⟨s', u, hreplay⟩ := hreplay
  have hstart : (start H ι).loc =
      Function.update (start H ι).loc i (⟨⟨none, .idle⟩, []⟩ : WorkerThread H) :=
    (Function.update_eq_self i _).symm
  have hrun : (affinityMachine taskKind ι).Reach (uses kinds tasks) (start H ι) ⟨s', Function.update
      (start H ι).loc i ⟨u, [⟨⟨(), 1, 0⟩, kind, .run task .leave⟩]⟩⟩ := by
    change (affinityMachine taskKind ι).Reach _ ⟨(start H ι).shared, (start H ι).loc⟩ _
    conv in Config.mk (start H ι).shared (start H ι).loc => rw [hstart]
    exact reach_of_replay _ huses hreplay
  refine ⟨_, hrun, ?_⟩
  simp only [Function.update_self]

/-- Native workers are kept from Python tasks, on every schedule of any number of threads, exactly
where no native worker is registered or no Python task is queued. -/
theorem native_only_iff [Fintype ι] (taskKind : H → TaskKind) (kinds : Set WorkerKind)
    (tasks : Set H) (i : ι) :
    (∀ c, (affinityMachine taskKind ι).Reachable (uses kinds tasks) c → NativeOnly taskKind c) ↔
      .native ∉ kinds ∨ ∀ task ∈ tasks, taskKind task ≠ .python := by
  constructor
  · intro h
    by_contra hno
    simp only [not_or, not_forall, not_not] at hno
    obtain ⟨hnative, task, htask, hpython⟩ := hno
    obtain ⟨c, hc, hcalls⟩ := reaches_run taskKind i hnative htask
    refine h c hc i _ (hcalls ▸ List.mem_cons_self) rfl task ?_ hpython
    exact List.mem_cons_self
  · intro h c hc j call hcall hkind task htask hpython
    obtain ⟨hk, ht⟩ := (reachable_within hc).calls j call hcall
    rcases h with hnative | hrust
    · exact hnative (hkind ▸ hk)
    · exact hrust task (ht task htask) hpython

end

/-! ## A Python task on a native worker -/

/-- Task 7 is a Python task, the others are not. -/
def oneCoroutine (task : ℕ) : TaskKind := if task = 7 then .python else .rust

/-- A bilingual worker queues tasks 8 and 7. A native worker steals them both, runs task 8, and then
takes task 7 from its own deque. -/
def stolenRun : List (Bool × WorkerAct ℕ) :=
  [(false, .register .bilingual), (false, .go), (false, .go), (false, .go), (false, .handOff 8),
    (false, .handOff 7), (true, .register .native), (true, .go), (true, .go), (true, .go),
    (true, .runLoop ⟨(), 2, 1⟩), (true, .go), (true, .attempt (.batch 0)),
    (true, .attempt (.batch 0)), (true, .attempt (.batch 0)), (true, .victim 0), (true, .go),
    (true, .attempt (.batch 1)), (true, .done), (true, .go)]

/-- In that run the native worker is running the Python task. -/
theorem native_runs_python : ∃ c,
    (affinityMachine oneCoroutine Bool).run (affinityMachine oneCoroutine Bool).init stolenRun =
      some c ∧
    c.shared.kind 0 = some .bilingual ∧
    (c.loc true).calls = [⟨⟨(), 2, 1⟩, .native, .run 7 (.batch ⟨0, 0⟩ 1)⟩] ∧
    ¬ NativeOnly oneCoroutine c := by
  refine ⟨_, rfl, rfl, rfl, fun h => ?_⟩
  exact h true _ List.mem_cons_self rfl 7 List.mem_cons_self rfl

end Hypertile.Affinity
