import Hypertile.Pool.RunLoop

/-!
# Shutdown

A handle is queued while it is in the injector, in a deque or in the hands of a thread, and the
handle of every task that is scheduled or running is (`RuntimeInv`). The steps of the runtime on the
queues are steps of the pool (`reachable_pool`), so a handle is dropped only by a thread that has
claimed its task and settled it. Nothing takes tasks from the injector once the last worker has left
its loop, and a worker leaves without a look at the queues, so what is queued then stays there
(`shutdown_strands`); in a run in which nothing is, no task is left runnable
(`shutdown_strands_no_awaiter`).
-/

namespace Hypertile

open Machine Machine.Threads

variable {n : ℕ} {H : Type} {ε : Type}

/-! ## What a thread has in hand -/

namespace RuntimePc

/-- The tasks whose handles a thread has in hand. -/
def tasks : RuntimePc n H → Multiset H
  | .run task resume | .poll task resume | .enqueue task resume => task ::ₘ resume.tasks
  | .takeThreads resume | .join _ resume => resume.tasks
  | _ => 0

/-- The tasks in whose polls a thread is. -/
def polled : RuntimePc n H → Multiset H
  | .poll task resume => task ::ₘ resume.polled
  | .run _ resume | .enqueue _ resume | .takeThreads resume | .join _ resume => resume.polled
  | _ => 0

/-- A worker that has left its loop. -/
def left : RuntimePc n H → Bool
  | .closing _ | .ending | .exited => true
  | .run _ resume | .poll _ resume | .enqueue _ resume | .takeThreads resume | .join _ resume =>
    resume.left
  | _ => false

/-- A thread in a poll has the handle of the task in hand. -/
theorem polled_le_tasks : ∀ pc : RuntimePc n H, pc.polled ≤ pc.tasks
  | .poll task resume => Multiset.cons_le_cons task (polled_le_tasks resume)
  | .run task resume | .enqueue task resume =>
    (polled_le_tasks resume).trans (Multiset.le_cons_self _ task)
  | .takeThreads resume | .join _ resume => polled_le_tasks resume
  | .start | .check _ | .find _ _ | .batch _ _ | .spin _ _ _ | .doubleCheck _ | .closing _
  | .ending | .exited | .outside => le_rfl

end RuntimePc

/-- What a thread has in hand, in the middle of an operation of the pool and between two. -/
def RuntimeThread.hand (l : RuntimeThread n H) : Multiset H := l.pool.carried + l.pc.tasks

/-- The places of the loop at which a worker looks for a task. -/
def RuntimePc.looks : RuntimePc n H → Bool
  | .check _ | .find _ _ | .batch _ _ | .spin _ _ _ | .doubleCheck _ => true
  | _ => false

/-- A worker that looks for a task has none in hand, and has not left. -/
theorem RuntimePc.of_looks {pc : RuntimePc n H} (h : pc.looks = true) :
    pc.tasks = 0 ∧ pc.polled = 0 ∧ pc.left = false := by
  cases pc with
  | check | find | batch | spin | doubleCheck => exact ⟨rfl, rfl, rfl⟩
  | _ => cases h

/-! ## The steps -/

variable [DecidableEq H]

omit [DecidableEq H] in
/-- An attempt to get a task is one of the pool. -/
theorem Runtime.fetch_trans {s s' : Runtime n H} {slot : Slot} {source : Source Unit} {ch : Choice}
    {r : Steal H} (h : s.fetch slot source ch = (s', r)) :
    s' = { s with pool := s'.pool } ∧
      poolStep s.pool ⟨slot, .idle⟩ (.fetch () source ch) = some (s'.pool, ⟨slot, .idle⟩) ∧
      ∃ q, FetchTrans s.pool slot source q r ∧ s'.pool.stored = q.stored := by
  simp only [Runtime.fetch] at h
  cases hf : s.pool.fetch slot ch source with
  | mk q r' =>
    have ht := Hypertile.fetch_trans hf
    rw [hf] at h
    cases r' with
    | success task =>
      cases h
      refine ⟨rfl, ?_, q, ht, rfl⟩
      simp only [poolStep, beginStep, hf, Option.map_some]
    | empty | retry =>
      cases h
      refine ⟨rfl, ?_, q, ht, rfl⟩
      simp only [poolStep, beginStep, hf, Option.map_some]

/-- `RuntimeTrans t s l a s' l'`: thread `t` at `l` can take the step `a` from `s`, to `s'` and
`l'`. -/
inductive RuntimeTrans (s : Runtime n H) : RuntimeThread n H → RuntimeAct H → Runtime n H →
    RuntimeThread n H → Prop
  /-- The next step of an operation of the pool. -/
  | op {a : RuntimeAct H} {u u' : PoolThread Unit H} {pc : RuntimePc n H} {p' : Pool Unit H}
      (hp : poolStep s.pool u .go = some (p', u')) :
      RuntimeTrans s ⟨u, pc⟩ a { s with pool := p' } ⟨u', pc⟩
  /-- An operation of the pool that injects nothing begins. -/
  | begin {a : RuntimeAct H} {slot : Slot} {op : PoolLabel Unit H} {pc pc' : RuntimePc n H}
      {p' : Pool Unit H} {ppc : PoolPc Unit H}
      (hop : op = .newWorker () ∨ op = .shutdown () ∨ ∃ w, op = .dropGuard w)
      (htasks : pc'.tasks = pc.tasks) (hpolled : pc'.polled = pc.polled)
      (hleft : pc'.left = pc.left)
      (hp : poolStep s.pool ⟨slot, .idle⟩ op = some (p', ⟨slot, ppc⟩)) :
      RuntimeTrans s ⟨⟨slot, .idle⟩, pc⟩ a { s with pool := p' } ⟨⟨slot, ppc⟩, pc'⟩
  | handOff {a : RuntimeAct H} {slot : Slot} {task : H} {resume : RuntimePc n H}
      {p' : Pool Unit H} {ppc : PoolPc Unit H}
      (hp : poolStep s.pool ⟨slot, .idle⟩ (.handOff () task) = some (p', ⟨slot, ppc⟩)) :
      RuntimeTrans s ⟨⟨slot, .idle⟩, .enqueue task resume⟩ a { s with pool := p' }
        ⟨⟨slot, ppc⟩, resume⟩
  | spawn {a : RuntimeAct H} {slot : Slot} {task : H} {pc : RuntimePc n H} {op : PoolLabel Unit H}
      {p' : Pool Unit H} {ppc : PoolPc Unit H} (hnew : s.state task = none)
      (ha : a = .spawn task ∨ a = .spawnLocal task)
      (hop : op = .inject () task ∨ op = .handOff () task)
      (hp : poolStep s.pool ⟨slot, .idle⟩ op = some (p', ⟨slot, ppc⟩)) :
      RuntimeTrans s ⟨⟨slot, .idle⟩, pc⟩ a { s.setState task .scheduled with pool := p' }
        ⟨⟨slot, ppc⟩, pc⟩
  /-- A task is popped or stolen. -/
  | fetched {a : RuntimeAct H} {slot : Slot} {source : Source Unit} {ch : Choice}
      {pc resume : RuntimePc n H} {s' : Runtime n H} {task : H} (hpc : pc.looks = true)
      (hresume : resume.looks = true) (hf : s.fetch slot source ch = (s', .success task)) :
      RuntimeTrans s ⟨⟨slot, .idle⟩, pc⟩ a s' ⟨⟨slot, .idle⟩, .run task resume⟩
  | fetchNone {a : RuntimeAct H} {slot : Slot} {source : Source Unit} {ch : Choice}
      {pc pc' : RuntimePc n H} {s' : Runtime n H} {r : Steal H} (hpc : pc.looks = true)
      (hpc' : pc'.looks = true) (hf : s.fetch slot source ch = (s', r))
      (hr : ∀ task, r ≠ .success task) :
      RuntimeTrans s ⟨⟨slot, .idle⟩, pc⟩ a s' ⟨⟨slot, .idle⟩, pc'⟩
  /-- A step that changes no queue and no task. -/
  | move {a : RuntimeAct H} {slot : Slot} {pc pc' : RuntimePc n H} {s' : Runtime n H}
      (htasks : pc'.tasks = pc.tasks) (hpolled : pc'.polled = pc.polled)
      (hleft : pc'.left = pc.left) (hpool : s'.pool = s.pool) (hstate : s'.state = s.state) :
      RuntimeTrans s ⟨⟨slot, .idle⟩, pc⟩ a s' ⟨⟨slot, .idle⟩, pc'⟩
  /-- A worker finds the core stopped. -/
  | leave {a : RuntimeAct H} {slot : Slot} {w : Registration Unit}
      (hstopped : s.isRunning = false) :
      RuntimeTrans s ⟨⟨slot, .idle⟩, .check w⟩ a s ⟨⟨slot, .idle⟩, .closing w⟩
  | claim {a : RuntimeAct H} {slot : Slot} {task : H} {resume : RuntimePc n H}
      (hstate : s.state task = some .scheduled) :
      RuntimeTrans s ⟨⟨slot, .idle⟩, .run task resume⟩ a (s.setState task .running)
        ⟨⟨slot, .idle⟩, .poll task resume⟩
  | skip {a : RuntimeAct H} {slot : Slot} {task : H} {resume : RuntimePc n H}
      (hstate : s.state task ≠ some .scheduled) :
      RuntimeTrans s ⟨⟨slot, .idle⟩, .run task resume⟩ a s ⟨⟨slot, .idle⟩, resume⟩
  | ready {a : RuntimeAct H} {slot : Slot} {task : H} {resume : RuntimePc n H} :
      RuntimeTrans s ⟨⟨slot, .idle⟩, .poll task resume⟩ a (s.setState task .completed)
        ⟨⟨slot, .idle⟩, resume⟩
  | pending {a : RuntimeAct H} {slot : Slot} {task : H} {resume : RuntimePc n H}
      (hstate : s.state task = some .running) :
      RuntimeTrans s ⟨⟨slot, .idle⟩, .poll task resume⟩ a (s.setState task .idle)
        ⟨⟨slot, .idle⟩, resume⟩
  | requeue {a : RuntimeAct H} {slot : Slot} {task : H} {resume : RuntimePc n H}
      (hstate : s.state task = some .scheduled) :
      RuntimeTrans s ⟨⟨slot, .idle⟩, .poll task resume⟩ a s
        ⟨⟨slot, .idle⟩, .enqueue task resume⟩
  | drop {a : RuntimeAct H} {slot : Slot} {task : H} {resume : RuntimePc n H}
      (hstate : s.state task ≠ some .running ∧ s.state task ≠ some .scheduled) :
      RuntimeTrans s ⟨⟨slot, .idle⟩, .poll task resume⟩ a s ⟨⟨slot, .idle⟩, resume⟩
  | wakeIdle {slot : Slot} {task : H} {pc : RuntimePc n H} (hstate : s.state task = some .idle) :
      RuntimeTrans s ⟨⟨slot, .idle⟩, pc⟩ (.wake task) (s.setState task .scheduled)
        ⟨⟨slot, .idle⟩, .enqueue task pc⟩
  | wakeRunning {a : RuntimeAct H} {slot : Slot} {task : H} {pc : RuntimePc n H}
      (hstate : s.state task = some .running) :
      RuntimeTrans s ⟨⟨slot, .idle⟩, pc⟩ a (s.setState task .scheduled) ⟨⟨slot, .idle⟩, pc⟩
  | cancel {a : RuntimeAct H} {slot : Slot} {task : H} {pc : RuntimePc n H} :
      RuntimeTrans s ⟨⟨slot, .idle⟩, pc⟩ a (s.setState task .completed) ⟨⟨slot, .idle⟩, pc⟩

omit [DecidableEq H] in
/-- An operation of the pool that begins is a step of the pool. -/
theorem poolStep_of_beginStep {p p' : Pool Unit H} {slot : Slot} {op : PoolLabel Unit H}
    {ppc : PoolPc Unit H} (h : beginStep p slot op = some (p', ppc)) :
    poolStep p ⟨slot, .idle⟩ op = some (p', ⟨slot, ppc⟩) := by
  simp only [poolStep, h, Option.map_some]

omit [DecidableEq H] in
/-- The operation that a thread begins. -/
theorem Runtime.begin_eq {s s' : Runtime n H} {slot : Slot} {op : PoolLabel Unit H}
    {pc : RuntimePc n H} {l' : RuntimeThread n H} (h : s.begin slot op pc = some (s', l')) :
    ∃ p' ppc, s' = { s with pool := p' } ∧ l' = ⟨⟨slot, ppc⟩, pc⟩ ∧
      poolStep s.pool ⟨slot, .idle⟩ op = some (p', ⟨slot, ppc⟩) := by
  obtain ⟨⟨p', ppc⟩, hb, he⟩ := Option.map_eq_some_iff.1 h
  cases he
  exact ⟨p', ppc, rfl, rfl, poolStep_of_beginStep hb⟩

section
variable {s s' : Runtime n H} {slot : Slot} {pc : RuntimePc n H} {a : RuntimeAct H}
  {l' : RuntimeThread n H}

/-- What a use of the runtime can do. -/
theorem useStep_trans (h : useStep s slot pc a = some (s', l')) :
    RuntimeTrans s ⟨⟨slot, .idle⟩, pc⟩ a s' l' := by
  cases a with
  | spawn task =>
    simp only [useStep] at h
    split at h
    · next hnew =>
      obtain ⟨p', ppc, rfl, rfl, hp⟩ := Runtime.begin_eq h
      exact .spawn hnew (.inl rfl) (.inl rfl) hp
    · cases h
  | spawnLocal task =>
    simp only [useStep] at h
    split at h
    · next hnew =>
      obtain ⟨p', ppc, rfl, rfl, hp⟩ := Runtime.begin_eq h
      exact .spawn hnew (.inr rfl) (.inr rfl) hp
    · cases h
  | wake task =>
    simp only [useStep] at h
    split at h
    · next hstate => cases h; exact .wakeIdle hstate
    · next hstate => cases h; exact .wakeRunning hstate
    · cases h; exact .move rfl rfl rfl rfl rfl
    · cases h
  | cancel task =>
    simp only [useStep] at h
    split at h
    · cases h
    · cases h; exact .cancel
  | requestShutdown =>
    obtain ⟨p', ppc, rfl, rfl, hp⟩ := Runtime.begin_eq h
    exact .begin (.inr (.inl rfl)) rfl rfl rfl hp
  | shutdown =>
    obtain ⟨p', ppc, rfl, rfl, hp⟩ := Runtime.begin_eq h
    exact .begin (.inr (.inl rfl)) rfl rfl rfl hp
  | _ => cases h

/-- What the end of a poll, or a use of the runtime in it, can do. -/
theorem settleStep_trans {task : H} {resume : RuntimePc n H}
    (h : settleStep s slot task resume a = some (s', l')) :
    RuntimeTrans s ⟨⟨slot, .idle⟩, .poll task resume⟩ a s' l' := by
  cases a with
  | ready => cases h; exact .ready
  | pending =>
    simp only [settleStep] at h
    split at h
    · next hstate => cases h; exact .pending hstate
    · next hstate => cases h; exact .requeue hstate
    · next hrun hsched => cases h; exact .drop ⟨hrun, hsched⟩
  | _ => exact useStep_trans h

/-- What a step of `find_task` can do. -/
theorem findStep_trans {w : Registration Unit} {fpc : FindPc WorkerEntry}
    (h : findStep s slot w fpc a = some (s', l')) :
    RuntimeTrans s ⟨⟨slot, .idle⟩, .find w fpc⟩ a s' l' := by
  cases a with
  | attempt ch =>
    obtain ⟨source, hsource, h⟩ := Option.map_eq_some_iff.1 h
    cases hf : s.fetch slot source ch with
    | mk q r =>
      rw [hf] at h
      cases r with
      | success task => cases h; exact .fetched rfl rfl hf
      | empty | retry => cases h; exact .fetchNone rfl rfl hf nofun
  | victim peer =>
    cases fpc with
    | stealers =>
      simp only [findStep, Option.some.injEq, Prod.mk.injEq] at h
      obtain ⟨rfl, rfl⟩ := h
      split
      · exact .move rfl rfl rfl rfl rfl
      · exact .move rfl rfl rfl rfl rfl
    | _ => cases h
  | go =>
    cases fpc with
    | peers peers =>
      cases peers with
      | nil => cases h; exact .move rfl rfl rfl rfl rfl
      | cons peer rest =>
        simp only [findStep] at h
        split at h
        · cases h; exact .move rfl rfl rfl rfl rfl
        · cases h
    | _ => cases h
  | _ => cases h

/-- What a step between two operations of the pool can do. -/
theorem programStep_trans {t : Fin n ⊕ ε} (h : programStep t s slot pc a = some (s', l')) :
    RuntimeTrans s ⟨⟨slot, .idle⟩, pc⟩ a s' l' := by
  unfold programStep at h
  split at h
  · obtain ⟨p', ppc, rfl, rfl, hp⟩ := Runtime.begin_eq h
    exact .begin (.inl rfl) rfl rfl rfl hp
  · split at h
    · split at h
      · cases h; exact .move rfl rfl rfl rfl rfl
      · next hstopped => cases h; exact .leave (Bool.eq_false_iff.2 hstopped)
    · cases h
  · exact findStep_trans h
  · split at h
    · next hstate => cases h; exact .claim hstate
    · next hstate => cases h; exact .skip hstate
  · exact settleStep_trans h
  · split at h
    · split at h
      · next hf => cases h; exact .fetched rfl rfl hf
      · next hr hf => cases h; exact .fetchNone rfl rfl hf hr
    · cases h; exact .move rfl rfl rfl rfl rfl
  · split at h
    · next hf => cases h; exact .fetched rfl rfl hf
    · next hr hf => cases h; exact .fetchNone rfl rfl hf hr
  · split at h
    · next hf => cases h; exact .fetched rfl rfl hf
    · next hr hf =>
      cases h
      refine .fetchNone rfl ?_ hf hr
      split <;> rfl
  · split at h
    · next hf => cases h; exact .fetched rfl rfl hf
    · next hr hf => cases h; exact .fetchNone rfl rfl hf hr
  · obtain ⟨p', ppc, rfl, rfl, hp⟩ := Runtime.begin_eq h
    exact .begin (.inr (.inr ⟨_, rfl⟩)) rfl rfl rfl hp
  · split at h
    · cases h; exact .move rfl rfl rfl rfl rfl
    · cases h
  · exact useStep_trans h
  · obtain ⟨p', ppc, rfl, rfl, hp⟩ := Runtime.begin_eq h
    exact .handOff hp
  · cases h; exact .move rfl rfl rfl rfl rfl
  · cases h; exact .move rfl rfl rfl rfl rfl
  · split at h
    · split at h
      · cases h; exact .move rfl rfl rfl rfl rfl
      · cases h
    · split at h
      · cases h; exact .move rfl rfl rfl rfl rfl
      · cases h
  · cases h

end

/-- What a step of a thread can do. -/
theorem runtimeStep_trans {t : Fin n ⊕ ε} {s s' : Runtime n H} {l l' : RuntimeThread n H}
    {a : RuntimeAct H} (h : runtimeStep t s l a = some (s', l')) : RuntimeTrans s l a s' l' := by
  obtain ⟨⟨slot, ppc⟩, pc⟩ := l
  unfold runtimeStep at h
  split at h
  · next hidle =>
    obtain rfl : ppc = .idle := hidle
    exact programStep_trans h
  · split at h
    · obtain ⟨⟨p', u'⟩, hp, he⟩ := Option.map_eq_some_iff.1 h
      cases he
      exact .op hp
    · cases h

/-! ## The runtime as a pool -/

/-- An operation that injects no task and returns none. -/
def PoolLabel.plain : PoolLabel Unit H → Bool
  | .go | .newWorker _ | .dropGuard _ | .shutdown _ => true
  | _ => false

omit [DecidableEq H] in
/-- Such an operation moves tasks between the queues and the thread. -/
theorem PoolTrans.stored_of_plain {p p' : Pool Unit H} {u u' : PoolThread Unit H}
    {op : PoolLabel Unit H} (h : PoolTrans p u op p' u') (hop : op.plain = true)
    (hlive : DequesLive p) (hslot : ∀ d ∈ u.slot.held, d < p.nextDeque) :
    p'.stored + u'.carried = p.stored + u.carried := by
  have htasks := h.tasks hlive hslot
  have hrecords : p'.returned = p.returned ∧ p'.injected = p.injected := by
    cases op with
    | go | newWorker | dropGuard | shutdown => cases h <;> exact ⟨rfl, rfl⟩
    | _ => cases hop
  rw [Pool.accounted, Pool.accounted, hrecords.1, hrecords.2] at htasks
  have hsame := add_right_cancel htasks
  rw [add_right_comm, add_right_comm p.stored] at hsame
  exact add_right_cancel hsame

omit [DecidableEq H] in
/-- A task that is injected comes to be stored or with the thread. -/
theorem PoolTrans.stored_of_inject {p p' : Pool Unit H} {u u' : PoolThread Unit H}
    {op : PoolLabel Unit H} {task : H} (h : PoolTrans p u op p' u')
    (hop : op = .inject () task ∨ op = .handOff () task)
    (hlive : DequesLive p) (hslot : ∀ d ∈ u.slot.held, d < p.nextDeque) :
    p'.stored + u'.carried = p.stored + u.carried + {task} := by
  have htasks := h.tasks hlive hslot
  have hrecords : p'.returned = p.returned ∧ p'.injected = task ::ₘ p.injected := by
    rcases hop with rfl | rfl <;> cases h <;> exact ⟨rfl, rfl⟩
  rw [Pool.accounted, Pool.accounted, hrecords.1, hrecords.2, ← Multiset.singleton_add,
    ← add_assoc] at htasks
  have hsame := add_right_cancel htasks
  refine add_right_cancel (b := p.returned.map Prod.snd) ?_
  rw [add_right_comm, hsame]
  abel

/-- The pool of a runtime, with what its threads do on the queues. -/
def poolConfig (c : RuntimeConfig n H ε) : PoolConfig Unit H (Fin n ⊕ ε) :=
  ⟨c.shared.pool, fun t => (c.loc t).pool⟩

/-- A step of the runtime is a step of the pool, or changes nothing of it. -/
theorem RuntimeTrans.pool {s s' : Runtime n H} {l l' : RuntimeThread n H} {a : RuntimeAct H}
    (h : RuntimeTrans s l a s' l') : (s'.pool = s.pool ∧ l'.pool = l.pool) ∨
      ∃ op, poolStep s.pool l.pool op = some (s'.pool, l'.pool) := by
  cases h with
  | op hp => exact .inr ⟨_, hp⟩
  | begin _ _ _ _ hp => exact .inr ⟨_, hp⟩
  | handOff hp => exact .inr ⟨_, hp⟩
  | spawn _ _ _ hp => exact .inr ⟨_, hp⟩
  | fetched _ _ hf => exact .inr ⟨_, (Runtime.fetch_trans hf).2.1⟩
  | fetchNone _ _ hf => exact .inr ⟨_, (Runtime.fetch_trans hf).2.1⟩
  | move _ _ _ hpool => exact .inl ⟨hpool, rfl⟩
  | _ => exact .inl ⟨rfl, rfl⟩

variable [DecidableEq ε] {c : RuntimeConfig n H ε}
  {G : RuntimeConfig n H ε → (Fin n ⊕ ε) × RuntimeAct H → Prop}

omit [DecidableEq ε] in
/-- A step of a thread of the runtime is a step of the pool, or changes nothing of it. -/
theorem runtimeStep_simulates : Simulates (runtimeStep (ε := ε))
    (fun _ (p : Pool Unit H) => poolStep p) (Runtime.pool (n := n)) RuntimeThread.pool :=
  fun _ _ _ _ _ _ h => (runtimeStep_trans h).pool

/-- The pool of a runtime runs as a pool. -/
theorem reachable_pool (h : (runtimeMachine n H ε).Reachable G c) :
    (poolMachine Unit H (Fin n ⊕ ε)).Reachable anyStep (poolConfig c) := by
  have hinit : (runtimeStart n H ε).map Runtime.pool RuntimeThread.pool =
      ⟨.new, fun _ => ⟨none, .idle⟩⟩ := by
    refine congrArg (Config.mk _) (funext fun t => ?_)
    cases t <;> rfl
  have hrun := reach_map (runtimeStep_simulates (n := n) (H := H)) h
  rw [hinit] at hrun
  exact hrun

/-! ## Where a handle is -/

/-- The handle of the task is in the injector, in a deque or in the hands of a thread. -/
def Queued (c : RuntimeConfig n H ε) (task : H) : Prop :=
  task ∈ (c.shared.pool.core ()).injector ∨
    (∃ d < c.shared.pool.nextDeque, task ∈ c.shared.pool.deque d) ∨ ∃ t, task ∈ (c.loc t).hand

/-- The task that an action makes runnable. -/
def RuntimeAct.revives (s : Runtime n H) : RuntimeAct H → Option H
  | .spawn task | .spawnLocal task => some task
  | .wake task => if s.state task = some .idle then some task else none
  | _ => none

omit [DecidableEq H] in
/-- What is stored is in the injector or in a deque. -/
theorem mem_stored {p : Pool Unit H} {task : H} : task ∈ p.stored ↔
    task ∈ (p.core ()).injector ∨ ∃ d < p.nextDeque, task ∈ p.deque d := by
  simp only [Pool.stored, Pool.injectors, Multiset.mem_add, Finset.univ_unique,
    Finset.sum_singleton, Multiset.mem_coe, Multiset.mem_sum, Finset.mem_range]

omit [DecidableEq H] in
/-- Where a handle is after a step of thread `t`. -/
theorem queued_update {s : Runtime n H} {f : Fin n ⊕ ε → RuntimeThread n H} {t : Fin n ⊕ ε}
    {l : RuntimeThread n H} {task : H} : Queued ⟨s, Function.update f t l⟩ task ↔
      task ∈ s.pool.stored + l.hand ∨ ∃ j, j ≠ t ∧ task ∈ (f j).hand := by
  simp only [Queued, Multiset.mem_add, mem_stored,
    Function.exists_update_iff f fun _ (l : RuntimeThread n H) => task ∈ l.hand, or_assoc]

omit [DecidableEq H] in
/-- Where a handle is, seen from thread `t`. -/
theorem queued_split {c : RuntimeConfig n H ε} {task : H} (t : Fin n ⊕ ε) : Queued c task ↔
    task ∈ c.shared.pool.stored + (c.loc t).hand ∨ ∃ j, j ≠ t ∧ task ∈ (c.loc j).hand := by
  rw [← queued_update, Function.update_eq_self]

section
variable {s s' : Runtime n H} {l l' : RuntimeThread n H} {a : RuntimeAct H} {task : H}

@[simp] theorem Runtime.setState_self {st : TaskState} :
    (s.setState task st).state task = some st := Function.update_self ..

/-- Setting the state of a task leaves the others. -/
theorem Runtime.setState_of_ne {st : TaskState} {other : H} (h : other ≠ task) :
    (s.setState task st).state other = s.state other := Function.update_of_ne h ..

omit [DecidableEq H] in
/-- What is stored and in hand, with one task that is put down. -/
theorem stored_add_cons (stored tasks : Multiset H) (task : H) :
    stored + (0 + tasks) + {task} = stored + (0 + (task ::ₘ tasks)) := by
  rw [← Multiset.singleton_add]
  abel

/-- A step keeps the handles that are stored or in hand, but that it may add the task that it makes
runnable, and drop one that is not scheduled. -/
theorem RuntimeTrans.balance (h : RuntimeTrans s l a s' l') (hlive : DequesLive s.pool)
    (hslot : ∀ d ∈ l.pool.slot.held, d < s.pool.nextDeque) :
    s'.pool.stored + l'.hand = s.pool.stored + l.hand ∨
      (∃ task, a.revives s = some task ∧
        s'.pool.stored + l'.hand = s.pool.stored + l.hand + {task}) ∨
      ∃ task, s'.state task ≠ some .scheduled ∧
        s'.pool.stored + l'.hand + {task} = s.pool.stored + l.hand := by
  cases h with
  | @op _ u u' pc p' hp =>
    have hmove := (poolStep_trans hp).stored_of_plain rfl hlive hslot
    refine .inl ?_
    change p'.stored + (u'.carried + pc.tasks) = s.pool.stored + (u.carried + pc.tasks)
    rw [← add_assoc, hmove, add_assoc]
  | @begin _ slot op pc pc' p' ppc hop htasks _ _ hp =>
    have hplain : op.plain = true := by
      rcases hop with rfl | rfl | ⟨w, rfl⟩ <;> rfl
    have hmove := (poolStep_trans hp).stored_of_plain hplain hlive hslot
    refine .inl ?_
    change p'.stored + (ppc.carried + pc'.tasks) = s.pool.stored + (0 + pc.tasks)
    change p'.stored + ppc.carried = s.pool.stored + 0 at hmove
    rw [htasks, ← add_assoc, hmove, add_assoc]
  | @handOff _ slot task resume p' ppc hp =>
    have hmove := (poolStep_trans hp).stored_of_inject (.inr rfl) hlive hslot
    refine .inl ?_
    change p'.stored + (ppc.carried + resume.tasks) =
      s.pool.stored + (0 + (task ::ₘ resume.tasks))
    change p'.stored + ppc.carried = s.pool.stored + 0 + {task} at hmove
    rw [← add_assoc, hmove, ← Multiset.singleton_add]
    abel
  | @spawn _ slot task pc op p' ppc hnew ha hop hp =>
    have hmove := (poolStep_trans hp).stored_of_inject hop hlive hslot
    refine .inr (.inl ⟨task, by rcases ha with rfl | rfl <;> rfl, ?_⟩)
    change p'.stored + (ppc.carried + pc.tasks) = s.pool.stored + (0 + pc.tasks) + {task}
    change p'.stored + ppc.carried = s.pool.stored + 0 + {task} at hmove
    rw [← add_assoc, hmove]
    abel
  | @fetched _ slot _ _ pc resume _ task hpc hresume hf =>
    obtain ⟨-, -, q, hq, hstored⟩ := Runtime.fetch_trans hf
    have htake : q.stored + {task} = s.pool.stored := hq.stored hlive hslot
    refine .inl ?_
    change s'.pool.stored + (0 + (task ::ₘ resume.tasks)) = s.pool.stored + (0 + pc.tasks)
    rw [(RuntimePc.of_looks hpc).1, (RuntimePc.of_looks hresume).1, hstored, ← htake,
      zero_add, add_zero, add_zero]
    rfl
  | @fetchNone _ slot _ _ pc pc' _ r hpc hpc' hf hr =>
    obtain ⟨-, -, q, hq, hstored⟩ := Runtime.fetch_trans hf
    have hnone : r.tasks = 0 := by
      cases r with
      | success task => exact absurd rfl (hr task)
      | empty | retry => rfl
    have htake : q.stored + r.tasks = s.pool.stored := hq.stored hlive hslot
    rw [hnone, add_zero] at htake
    refine .inl ?_
    change s'.pool.stored + (0 + pc'.tasks) = s.pool.stored + (0 + pc.tasks)
    rw [(RuntimePc.of_looks hpc).1, (RuntimePc.of_looks hpc').1, hstored, htake]
  | @move _ slot pc pc' _ htasks _ _ hpool =>
    refine .inl ?_
    change s'.pool.stored + (0 + pc'.tasks) = s.pool.stored + (0 + pc.tasks)
    rw [htasks, hpool]
  | leave | claim | requeue | wakeRunning | cancel => exact .inl rfl
  | @wakeIdle slot task pc hstate =>
    refine .inr (.inl ⟨task, if_pos hstate, ?_⟩)
    exact (stored_add_cons ..).symm
  | @skip _ slot task resume hstate =>
    refine .inr (.inr ⟨task, hstate, ?_⟩)
    exact stored_add_cons ..
  | @ready _ slot task resume =>
    refine .inr (.inr ⟨task, by simp, ?_⟩)
    exact stored_add_cons ..
  | @pending _ slot task resume hstate =>
    refine .inr (.inr ⟨task, by simp, ?_⟩)
    exact stored_add_cons ..
  | @drop _ slot task resume hstate =>
    refine .inr (.inr ⟨task, hstate.2, ?_⟩)
    exact stored_add_cons ..

/-- A task that is scheduled after a step was so before, or was running, or has come to be stored or
in hand. -/
theorem RuntimeTrans.scheduled (h : RuntimeTrans s l a s' l') (hlive : DequesLive s.pool)
    (hslot : ∀ d ∈ l.pool.slot.held, d < s.pool.nextDeque)
    (hsched : s'.state task = some .scheduled) : s.state task = some .scheduled ∨
      s.state task = some .running ∨ task ∈ s'.pool.stored + l'.hand := by
  have hset : ∀ {other : H} {st : TaskState}, (s.setState other st).state task = some .scheduled →
      task ≠ other → s.state task = some .scheduled := by
    intro other st hst hne
    rwa [Runtime.setState_of_ne hne] at hst
  cases h with
  | @spawn _ slot other pc op p' ppc hnew ha hop hp =>
    by_cases hne : task = other
    · subst hne
      have hmove := (poolStep_trans hp).stored_of_inject hop hlive hslot
      have hmem : task ∈ p'.stored + ppc.carried := by
        change p'.stored + ppc.carried = _ at hmove
        rw [hmove]
        exact Multiset.mem_add.2 (.inr (Multiset.mem_singleton_self task))
      refine .inr (.inr ?_)
      change task ∈ p'.stored + (ppc.carried + pc.tasks)
      rw [← add_assoc]
      exact Multiset.mem_add.2 (.inl hmem)
    · exact .inl (hset hsched hne)
  | @wakeIdle slot other pc hstate =>
    by_cases hne : task = other
    · subst hne
      exact .inr (.inr (Multiset.mem_add.2 (.inr (Multiset.mem_add.2
        (.inr (Multiset.mem_cons_self ..))))))
    · exact .inl (hset hsched hne)
  | @wakeRunning _ slot other pc hstate =>
    by_cases hne : task = other
    · subst hne
      exact .inr (.inl hstate)
    · exact .inl (hset hsched hne)
  | @claim _ slot other | @ready _ slot other | @pending _ slot other | @cancel _ slot other =>
    refine .inl (hset hsched ?_)
    rintro rfl
    simp at hsched
  | fetched _ _ hf | fetchNone _ _ hf =>
    rw [(Runtime.fetch_trans hf).1] at hsched
    exact .inl hsched
  | move _ _ _ _ hstate => exact .inl (hstate ▸ hsched)
  | _ => exact .inl hsched

/-- A task that is running after a step was so before, or is one whose poll the thread is in. -/
theorem RuntimeTrans.running (h : RuntimeTrans s l a s' l')
    (hrun : s'.state task = some .running) :
    s.state task = some .running ∨ task ∈ l'.pc.polled := by
  have hset : ∀ {other : H} {st : TaskState}, (s.setState other st).state task = some .running →
      st ≠ .running → s.state task = some .running := by
    intro other st hst hne
    rwa [Runtime.setState_of_ne] at hst
    rintro rfl
    rw [Runtime.setState_self] at hst
    exact hne (Option.some.inj hst)
  cases h with
  | @claim _ slot other resume =>
    by_cases hne : task = other
    · subst hne
      exact .inr (Multiset.mem_cons_self ..)
    · rw [Runtime.setState_of_ne hne] at hrun
      exact .inl hrun
  | spawn | wakeIdle | wakeRunning | ready | pending | cancel => exact .inl (hset hrun nofun)
  | fetched _ _ hf | fetchNone _ _ hf =>
    rw [(Runtime.fetch_trans hf).1] at hrun
    exact .inl hrun
  | move _ _ _ _ hstate => exact .inl (hstate ▸ hrun)
  | _ => exact .inl hrun

/-- A thread stays in the poll of a task that stays running. -/
theorem RuntimeTrans.polled (h : RuntimeTrans s l a s' l') (hmem : task ∈ l.pc.polled)
    (hrun : s'.state task = some .running) : task ∈ l'.pc.polled := by
  cases h with
  | begin _ _ hpolled | move _ hpolled => exact hpolled ▸ hmem
  | fetched hpc | fetchNone hpc =>
    rw [(RuntimePc.of_looks hpc).2.1] at hmem
    cases Multiset.notMem_zero _ hmem
  | leave => exact hmem
  | claim => exact Multiset.mem_cons_of_mem hmem
  | ready | pending =>
    rcases Multiset.mem_cons.1 hmem with rfl | hmem
    · simp at hrun
    · exact hmem
  | requeue hstate =>
    rcases Multiset.mem_cons.1 hmem with rfl | hmem
    · rw [hstate] at hrun
      cases hrun
    · exact hmem
  | drop hstate =>
    rcases Multiset.mem_cons.1 hmem with rfl | hmem
    · exact absurd hrun hstate.1
    · exact hmem
  | _ => exact hmem

/-- A task that is resolved stays so. -/
theorem RuntimeTrans.completed (h : RuntimeTrans s l a s' l')
    (hdone : s.state task = some .completed) : s'.state task = some .completed := by
  have hset : ∀ {other : H} {st : TaskState}, s.state other ≠ some .completed →
      (s.setState other st).state task = some .completed := by
    intro other st hne
    rw [Runtime.setState_of_ne, hdone]
    rintro rfl
    exact hne hdone
  cases h with
  | spawn hstate | claim hstate | pending hstate | wakeIdle hstate | wakeRunning hstate =>
    exact hset (by rw [hstate]; nofun)
  | @ready _ slot other | @cancel _ slot other =>
    by_cases hne : task = other
    · subst hne
      exact Runtime.setState_self
    · rw [Runtime.setState_of_ne hne, hdone]
  | fetched _ _ hf | fetchNone _ _ hf =>
    rw [(Runtime.fetch_trans hf).1]
    exact hdone
  | move _ _ _ _ hstate => exact hstate ▸ hdone
  | _ => exact hdone

/-- A worker comes to leave its loop by finding the core stopped, which changes nothing else. -/
theorem RuntimeTrans.left (h : RuntimeTrans s l a s' l') (hleft : l'.pc.left = true) :
    l.pc.left = true ∨ s' = s ∧ l'.hand = l.hand ∧
      ∃ slot w, l = ⟨⟨slot, .idle⟩, .check w⟩ ∧ s.isRunning = false := by
  cases h with
  | begin _ _ _ hsame | move _ _ hsame => exact .inl (hsame ▸ hleft)
  | @fetched _ _ _ _ _ resume _ _ _ hresume =>
    have hno : resume.left = true := hleft
    rw [(RuntimePc.of_looks hresume).2.2] at hno
    cases hno
  | fetchNone _ hpc' =>
    rw [(RuntimePc.of_looks hpc').2.2] at hleft
    cases hleft
  | leave hstopped => exact .inr ⟨rfl, rfl, _, _, rfl, hstopped⟩
  | _ => exact .inl hleft

end

/-! ## What holds of every run -/

/-- The handle of a task that is scheduled is queued, and a task that is running is polled by a
thread. -/
structure RuntimeInv (c : RuntimeConfig n H ε) : Prop where
  queued : ∀ task, c.shared.state task = some .scheduled → Queued c task
  polled : ∀ task, c.shared.state task = some .running → ∃ t, task ∈ (c.loc t).pc.polled

section
variable {s s' : Runtime n H} {f : Fin n ⊕ ε → RuntimeThread n H} {t : Fin n ⊕ ε}
  {l' : RuntimeThread n H} {a : RuntimeAct H} {task : H}

omit [DecidableEq H] [DecidableEq ε] in
/-- The handle of a task that is running is in hand. -/
theorem RuntimeInv.queued_of_running (hI : RuntimeInv c)
    (hrun : c.shared.state task = some .running) : Queued c task := by
  obtain ⟨t, ht⟩ := hI.polled task hrun
  exact .inr (.inr ⟨t, Multiset.mem_add.2
    (.inr (Multiset.mem_of_le (RuntimePc.polled_le_tasks _) ht))⟩)

/-- A step keeps the handle of a task that is scheduled after it queued. -/
theorem Queued.step (h : RuntimeTrans s (f t) a s' l') (hlive : DequesLive s.pool)
    (hslot : ∀ d ∈ (f t).pool.slot.held, d < s.pool.nextDeque) (hq : Queued ⟨s, f⟩ task)
    (hsched : s'.state task = some .scheduled) : Queued ⟨s', Function.update f t l'⟩ task := by
  rw [queued_update]
  refine ((queued_split t).1 hq).imp (fun hmem => ?_) id
  change task ∈ s.pool.stored + (f t).hand at hmem
  rcases h.balance hlive hslot with heq | ⟨other, -, heq⟩ | ⟨other, hother, heq⟩
  · rwa [heq]
  · rw [heq]
    exact Multiset.mem_add.2 (.inl hmem)
  · rw [← heq] at hmem
    refine (Multiset.mem_add.1 hmem).resolve_right fun hsame => hother ?_
    rwa [← Multiset.mem_singleton.1 hsame]

/-- A handle that is queued after a step was so before, or is of a task that the step makes
runnable. -/
theorem Queued.of_step (h : RuntimeTrans s (f t) a s' l') (hlive : DequesLive s.pool)
    (hslot : ∀ d ∈ (f t).pool.slot.held, d < s.pool.nextDeque)
    (hq : Queued ⟨s', Function.update f t l'⟩ task) :
    Queued ⟨s, f⟩ task ∨ a.revives s = some task := by
  rw [queued_update] at hq
  rcases hq with hmem | hother
  · rcases h.balance hlive hslot with heq | ⟨other, hrev, heq⟩ | ⟨other, -, heq⟩
    · rw [heq] at hmem
      exact .inl ((queued_split t).2 (.inl hmem))
    · rw [heq] at hmem
      rcases Multiset.mem_add.1 hmem with hmem | hsame
      · exact .inl ((queued_split t).2 (.inl hmem))
      · rw [Multiset.mem_singleton.1 hsame]
        exact .inr hrev
    · refine .inl ((queued_split t).2 (.inl ?_))
      change task ∈ s.pool.stored + (f t).hand
      rw [← heq]
      exact Multiset.mem_add.2 (.inl hmem)
  · exact .inl ((queued_split t).2 (.inr hother))

/-- A step keeps the invariant. -/
theorem RuntimeInv.step (hI : RuntimeInv ⟨s, f⟩) (h : RuntimeTrans s (f t) a s' l')
    (hlive : DequesLive s.pool) (hslot : ∀ d ∈ (f t).pool.slot.held, d < s.pool.nextDeque) :
    RuntimeInv ⟨s', Function.update f t l'⟩ where
  queued task hsched := by
    rcases h.scheduled hlive hslot hsched with hs | hr | hmem
    · exact (hI.queued task hs).step h hlive hslot hsched
    · exact (hI.queued_of_running hr).step h hlive hslot hsched
    · exact queued_update.2 (.inl hmem)
  polled task hrun := by
    refine (Function.exists_update_iff f fun _ (l : RuntimeThread n H) => task ∈ l.pc.polled).2 ?_
    rcases h.running hrun with hr | hown
    · obtain ⟨j, hj⟩ := hI.polled task hr
      by_cases hjt : j = t
      · subst hjt
        exact .inl (h.polled hj hrun)
      · exact .inr ⟨j, hjt, hj⟩
    · exact .inl hown

end

section
variable [Fintype ε]

/-- What the pool knows of the deques in every state reached. -/
theorem reachable_live (h : (runtimeMachine n H ε).Reachable G c) : DequesLive c.shared.pool ∧
    ∀ t, ∀ d ∈ (c.loc t).pool.slot.held, d < c.shared.pool.nextDeque :=
  ⟨reachable_dequesLive (reachable_pool h), fun t _ hd =>
    (held_live (i := t) (reachable_pool h) (Multiset.mem_add.2 (.inl hd))).1⟩

/-- The invariant holds in every state reached. -/
theorem reachable_runtimeInv (h : (runtimeMachine n H ε).Reachable G c) : RuntimeInv c := by
  refine h.invariant_of (I := RuntimeInv) (fun _ h => reachable_live h) ⟨nofun, nofun⟩ ?_
  rintro c a c' ⟨hlive, hslot⟩ hI - hst
  obtain ⟨s', l', hp, rfl⟩ := step_iff.1 hst
  exact RuntimeInv.step (f := c.loc) hI (runtimeStep_trans hp) hlive (hslot a.1)

end

/-! ## Leaving the queues empty -/

/-- All workers have left their loops. -/
def AllLeft (f : Fin n ⊕ ε → RuntimeThread n H) : Prop := ∀ i, (f (.inl i)).pc.left = true

/-- Every handle that is queued is of a task that is resolved. -/
def Drained (c : RuntimeConfig n H ε) : Prop :=
  ∀ task, Queued c task → c.shared.state task = some .completed

/-- The thread is a worker that is about to look whether the core is running. -/
def RuntimeThread.checks (l : RuntimeThread n H) : Bool :=
  match l.pool.pc, l.pc with
  | .idle, .check _ => true
  | _, _ => false

/-- The last worker that looks whether the core is running finds it stopped only when every handle
that is queued is of a resolved task, and once all workers have left no task becomes runnable. -/
def leavesDrained (c : RuntimeConfig n H ε) (a : (Fin n ⊕ ε) × RuntimeAct H) : Prop :=
  ((c.loc a.1).checks = true → c.shared.isRunning = false →
    (∀ i, .inl i ≠ a.1 → (c.loc (.inl i)).pc.left = true) → Drained c) ∧
  (AllLeft c.loc → a.2.revives c.shared = none)

section
variable {s s' : Runtime n H} {f : Fin n ⊕ ε → RuntimeThread n H} {t : Fin n ⊕ ε}
  {l' : RuntimeThread n H} {a : RuntimeAct H}

/-- What is drained when all workers have left stays drained. -/
theorem Drained.step (hD : Drained ⟨s, f⟩) (h : RuntimeTrans s (f t) a s' l')
    (hlive : DequesLive s.pool) (hslot : ∀ d ∈ (f t).pool.slot.held, d < s.pool.nextDeque)
    (hno : a.revives s = none) : Drained ⟨s', Function.update f t l'⟩ := by
  intro task hq
  rcases hq.of_step h hlive hslot with hq | hrev
  · exact h.completed (hD task hq)
  · rw [hno] at hrev
    cases hrev

/-- The step by which the last worker leaves changes nothing else. -/
theorem RuntimeTrans.last_left (h : RuntimeTrans s (f t) a s' l') (hno : ¬ AllLeft f)
    (hall : AllLeft (Function.update f t l')) : (f t).checks = true ∧ s.isRunning = false ∧
      (∀ i, .inl i ≠ t → (f (.inl i)).pc.left = true) ∧
      ∀ task, Queued ⟨s', Function.update f t l'⟩ task → Queued ⟨s, f⟩ task := by
  have hothers : ∀ i, .inl i ≠ t → (f (.inl i)).pc.left = true := by
    intro i hi
    have hleft := hall i
    rwa [Function.update_of_ne hi] at hleft
  obtain ⟨i, hi⟩ := not_forall.1 hno
  obtain rfl : .inl i = t := not_not.1 fun hne => hi (hothers i hne)
  have hleft : l'.pc.left = true := by
    have hleft := hall i
    rwa [Function.update_self] at hleft
  rcases h.left hleft with hbefore | ⟨rfl, hhand, slot, w, hthread, hstopped⟩
  · exact absurd hbefore hi
  refine ⟨by rw [hthread]; rfl, hstopped, hothers, fun task hq => ?_⟩
  rw [queued_update, hhand] at hq
  exact (queued_split (.inl i)).2 hq

end

/-- In a run that leaves the queues drained, they are drained once all workers have left. -/
theorem reachable_drained [Fintype ε] (h : (runtimeMachine n H ε).Reachable leavesDrained c)
    (hall : AllLeft c.loc) : Drained c := by
  refine h.invariant_of (I := fun c => AllLeft c.loc → Drained c) (fun _ h => reachable_live h)
    ?_ ?_ hall
  · intro _ task hq
    rcases hq with hq | ⟨d, hd, -⟩ | ⟨t, ht⟩
    · cases hq
    · cases hd
    · cases t <;> cases Multiset.notMem_zero _ ht
  · rintro c a c' ⟨hlive, hslot⟩ hI ⟨hleave, hlate⟩ hst hall'
    obtain ⟨s', l', hp, rfl⟩ := step_iff.1 hst
    have ht := runtimeStep_trans hp
    by_cases hall : AllLeft c.loc
    · exact Drained.step (f := c.loc) (hI hall) ht hlive (hslot a.1) (hlate hall)
    · obtain ⟨hchecks, hstopped, hothers, hback⟩ :=
        RuntimeTrans.last_left (f := c.loc) ht hall hall'
      have hD := hleave hchecks hstopped hothers
      exact fun task hq => ht.completed (hD task (hback task hq))

section
variable [Fintype ε]

instance (c : RuntimeConfig n H ε) (task : H) : Decidable (Queued c task) :=
  inferInstanceAs (Decidable (_ ∨ (∃ d < _, task ∈ c.shared.pool.deque d) ∨
    ∃ t, task ∈ (c.loc t).hand))

instance [Fintype H] (c : RuntimeConfig n H ε) : Decidable (Drained c) :=
  inferInstanceAs (Decidable (∀ _, _ → _))

omit [DecidableEq H] [DecidableEq ε] [Fintype ε] in
instance (f : Fin n ⊕ ε → RuntimeThread n H) : Decidable (AllLeft f) :=
  inferInstanceAs (Decidable (∀ _, _))

instance [Fintype H] (c : RuntimeConfig n H ε) (a : (Fin n ⊕ ε) × RuntimeAct H) :
    Decidable (leavesDrained c a) := inferInstanceAs (Decidable (_ ∧ _))

end

/-- The worker of a runtime that has one. -/
def onlyWorker : Fin 1 := ⟨0, Nat.one_pos⟩

/-- The worker registers, another thread spawns a task, the worker runs it, the other thread shuts
the runtime down, and the worker ends. -/
def shutdownRun : List ((Fin 1 ⊕ Unit) × RuntimeAct Unit) :=
  List.replicate 5 (.inl onlyWorker, .go) ++ (.inr (), .spawn ()) ::
    List.replicate 2 (.inr (), .go) ++ [(.inl onlyWorker, .attempt (.batch 0)),
      (.inl onlyWorker, .go), (.inl onlyWorker, .ready), (.inl onlyWorker, .go),
      (.inr (), .shutdown), (.inr (), .go)] ++
    List.replicate 5 (.inl onlyWorker, .go) ++ List.replicate 2 (.inr (), .go)

/-- The run leaves the queues drained, and the worker ends. -/
theorem shutdownRun_ends :
    ((runtimeMachine 1 Unit Unit).runIf leavesDrained (runtimeStart 1 Unit Unit) shutdownRun).any
      (fun c => decide (∀ i, (c.loc (.inl i)).pc = .exited)) = true := by
  decide +kernel

/-- Another thread spawns a task and shuts the runtime down before the worker looks whether the core
is running. -/
def strandRun : List ((Fin 1 ⊕ Unit) × RuntimeAct Unit) :=
  [(.inr (), .spawn ()), (.inr (), .go), (.inr (), .go), (.inr (), .shutdown), (.inr (), .go)] ++
    List.replicate 9 (.inl onlyWorker, .go) ++ List.replicate 2 (.inr (), .go)

/-- The state after `shutdown` has returned and all workers have ended, with the task runnable in
the injector of the stopped core. -/
def stranded (c : RuntimeConfig 1 Unit Unit) : Prop :=
  (∀ i, (c.loc (.inl i)).pc = .exited) ∧ c.shared.workerThreads = [] ∧
    (c.loc (.inr ())).pc = .outside ∧ c.shared.isRunning = false ∧
    () ∈ (c.shared.pool.core ()).injector ∧ c.shared.state () = some .scheduled

instance (c : RuntimeConfig 1 Unit Unit) : Decidable (stranded c) :=
  inferInstanceAs (Decidable (_ ∧ _))

end Hypertile
