import Hypertile.Pool.Guards

/-!
# Every queued task is within reach of a worker

A registration and the drop of a guard change the registry of the core and the slot of the thread
they run on. The two agree as long as no other thread has the local deque of the worker that a step
registers or deregisters (`ownDeques`): then the deque in every slot is registered, but for the
thread that is about to register it or to take it back, and a deque with tasks is registered or
being flushed (`queues_reachable`). The guard is needed: a guard that is dropped on another thread
leaves the deque of its registration where it is (`dropped_on_another_thread`).
-/

namespace Hypertile

open Machine Machine.Threads

variable {κ H : Type} [DecidableEq κ] {ι : Type} [DecidableEq ι] {c : PoolConfig κ H ι}
  {G : PoolConfig κ H ι → ι × PoolLabel κ H → Prop}

/-! ## The deque that is being installed -/

/-- The deque that a thread is about to register is in its slot. -/
def PoolThread.Installed (t : PoolThread κ H) : Prop :=
  ∀ k id worker, t.pc = .register k id worker → t.slot = some (id, worker)

omit [DecidableEq ι] in
/-- A step puts the deque into the slot before it is registered. -/
theorem PoolTrans.installed {p p' : Pool κ H} {t t' : PoolThread κ H} {a : PoolLabel κ H}
    (h : PoolTrans p t a p' t') : t'.Installed := by
  intro k id worker hpc
  cases h with
  | install => cases hpc; rfl
  | @injectLocal _ _ _ _ loop | @push _ _ _ loop => cases loop <;> cases hpc
  | @drainEnd _ loop =>
    have hexit : loop.exit (H := H) = .register k id worker := hpc
    unfold Drain.exit at hexit
    split at hexit <;> cases hexit
  | _ => cases hpc

/-- `PoolThread.Installed` in every state reached. -/
theorem reachable_installed (h : (poolMachine κ H ι).Reachable G c) (j : ι) :
    (c.loc j).Installed := by
  refine pool_local (J := fun _ => True) (L := fun _ _ t => t.Installed) h (fun _ _ => trivial)
    (fun _ => nofun) ?_ ?_ j
  · intro c i a p' t t' _ _ _ _ ht
    exact ht.installed
  · intro c i a p' t t' j _ _ _ _ _ hL
    exact hL

omit [DecidableEq κ] [DecidableEq ι] in
/-- The deque that a thread is about to install or to register is among those that it holds. -/
theorem PoolThread.Installed.mem_held {t : PoolThread κ H} (h : t.Installed) {r : Registration κ}
    (hr : t.pc.installs = some r) : r.deque ∈ t.held := by
  obtain ⟨slot, pc⟩ := t
  have loop_held : ∀ {loop : Drain κ}, loop.installs = some r → r.deque ∈ loop.held := by
    rintro ⟨core, d, left, after⟩ hloop
    cases after with
    | install id worker =>
      cases hloop
      exact Multiset.mem_cons_of_mem (Multiset.mem_singleton_self _)
    | done => cases hloop
  cases pc with
  | takeAny | install =>
    cases hr
    exact Multiset.mem_add.2 (.inr (Multiset.mem_singleton_self _))
  | register k id worker =>
    cases hr
    have hslot : slot = some (id, worker) := h k id worker rfl
    subst hslot
    exact Multiset.mem_add.2 (.inl (Multiset.mem_singleton_self _))
  | drain loop => exact Multiset.mem_add.2 (.inr (loop_held hr))
  | inject _ _ loop | push _ _ loop =>
    obtain ⟨loop, rfl, hloop⟩ := Option.bind_eq_some_iff.1 hr
    exact Multiset.mem_add.2 (.inr (loop_held hloop))
  | _ => cases hr

omit [DecidableEq κ] [DecidableEq ι] in
/-- What a thread holds outside its slot: the deque that it drains and the one that it installs. -/
theorem PoolPc.held_cases {pc : PoolPc κ H} {d : DequeId} (hd : d ∈ pc.held) :
    (∃ loop, pc.loop = some loop ∧ loop.deque = d) ∨ ∃ r, pc.installs = some r ∧ r.deque = d := by
  have loop_held : ∀ {loop : Drain κ}, d ∈ loop.held →
      loop.deque = d ∨ ∃ r, loop.installs = some r ∧ r.deque = d := by
    rintro ⟨core, d', left, after⟩ hloop
    cases after with
    | install id worker =>
      have hmem : d ∈ d' ::ₘ ({worker} : Multiset DequeId) := hloop
      rcases Multiset.mem_cons.1 hmem with hd' | hw
      · exact .inl hd'.symm
      · exact .inr ⟨⟨core, id, worker⟩, rfl, (Multiset.mem_singleton.1 hw).symm⟩
    | done => exact .inl (Multiset.mem_singleton.1 hloop).symm
  cases pc with
  | takeAny k id worker | install k id worker =>
    exact .inr ⟨⟨k, id, worker⟩, rfl, (Multiset.mem_singleton.1 hd).symm⟩
  | drain loop =>
    rcases loop_held hd with hl | hr
    · exact .inl ⟨loop, rfl, hl⟩
    · exact .inr hr
  | inject _ _ loop | push _ _ loop =>
    cases loop with
    | none => exact absurd hd (Multiset.notMem_zero d)
    | some loop =>
      rcases loop_held hd with hl | hr
      · exact .inl ⟨loop, rfl, hl⟩
      · exact .inr hr
  | _ => exact absurd hd (Multiset.notMem_zero d)

section
variable [Fintype ι]

/-- A deque that is about to be installed or registered has no task. -/
theorem reachable_installs_empty (h : (poolMachine κ H ι).Reachable G c) (j : ι) :
    ∀ r, (c.loc j).pc.installs = some r → c.shared.deque r.deque = [] := by
  refine pool_local (J := (poolMachine κ H ι).Reachable G)
    (L := fun _ p t => ∀ r, t.pc.installs = some r → p.deque r.deque = []) h
    (fun _ h => h) (fun _ => nofun) ?_ ?_ j
  · intro c i a p' t t' hr _ hi hL ht r hinst
    have hslot := hi ▸ reachable_slotEmptied hr i
    cases ht with
    | newWorker =>
      cases hinst
      by_contra hne
      exact absurd (reachable_dequesLive hr _ hne).1 (Nat.lt_irrefl _)
    | takeAny | takeNone | install | injectBack => exact hL r hinst
    | drainEnd => exact hL r ((PoolPc.installs_exit _).symm.trans hinst)
    | push => exact hL r ((PoolPc.installs_afterInject _).symm.trans hinst)
    | @injectLocal _ _ _ _ loop =>
      rw [PoolPc.installs_afterInject] at hinst
      obtain ⟨loop, rfl, -⟩ := Option.bind_eq_some_iff.1 hinst
      cases hslot rfl
    | @drain slot loop task rest hq =>
      have hnil := hL r hinst
      have hne : r.deque ≠ loop.deque := by
        intro heq
        rw [heq, hq] at hnil
        cases hnil
      rw [Pool.setDeque_of_ne hne]
      exact hnil
    | _ => cases hinst
  · intro c i a p' t t' j hr _ hi hj ht hL r hinst
    have hmem : r.deque ∉ t.slot.held := by
      intro hmem
      have hheld := (reachable_installed hr j).mem_held hinst
      exact hj (held_unique hr hheld (hi ▸ Multiset.mem_add.2 (.inl hmem)))
    have hle := ht.length_le hmem
    rw [hL r hinst] at hle
    exact List.eq_nil_of_length_eq_zero (Nat.le_zero.1 hle)

/-- A deque that was made and is not dropped is with a thread. -/
theorem exists_held (h : (poolMachine κ H ι).Reachable G c) {d : DequeId}
    (hd : d < c.shared.nextDeque) (hret : d ∉ c.shared.retired) :
    ∃ i, d ∈ (c.loc i).held := by
  have hpos : 0 < total (fun p : Pool κ H => p.retired.count d) (fun t => t.held.count d) c := by
    rw [count_deque h d]
    exact Multiset.count_pos.2 (Multiset.mem_range.2 hd)
  rcases exists_holder hpos with hr | ⟨i, hi⟩
  · exact absurd (Multiset.count_pos.1 hr) hret
  · exact ⟨i, Multiset.count_pos.1 hi⟩

end

/-! ## The deques in the slots are registered -/

/-- The worker that the local deque of a thread was made for. -/
def localOwner (c : PoolConfig κ H ι) (j : ι) : Option (κ × WorkerId) :=
  (c.loc j).slot.bind fun owned => c.shared.madeFor owned.2

/-- No other thread has the local deque of the worker that a step registers or deregisters: a guard
is dropped on the thread that has the deque of its worker if any has, and no worker gets the id of
one that has its deque, which ids do that wrap. -/
def ownDeques (c : PoolConfig κ H ι) (a : ι × PoolLabel κ H) : Prop :=
  ∀ w ∈ (c.loc a.1).changes a.2, ∀ j, j ≠ a.1 → localOwner c j ≠ some w

/-- A worker with this id and deque is registered. -/
def Pool.Listed (p : Pool κ H) (id : WorkerId) (d : DequeId) : Prop :=
  ∃ k, ⟨id, d⟩ ∈ (p.core k).registry.workers

/-- The thread is about to register the deque in its slot, or to take it back. -/
def PoolPc.exempt : PoolPc κ H → WorkerId → Prop
  | .register _ _ _, _ => True
  | .takeLocal g, id => g.id = id
  | _, _ => False

/-- The deque in the slot is registered, unless the thread is about to register it or to take it
back. -/
def PoolThread.SlotListed (p : Pool κ H) (t : PoolThread κ H) : Prop :=
  ∀ id d, t.slot = some (id, d) → ¬ t.pc.exempt id → p.Listed id d

/-- A registered deque stays so, unless the step changes the worker that it was made for. -/
theorem PoolTrans.listed {p p' : Pool κ H} {t t' : PoolThread κ H} {a : PoolLabel κ H}
    (h : PoolTrans p t a p' t') (hp : p.Tagged) {id : WorkerId} {d : DequeId}
    (hd : p.Listed id d) (hne : ∀ k, p.madeFor d = some (k, id) → t.changes a ≠ some (k, id)) :
    p'.Listed id d := by
  obtain ⟨k, hk⟩ := hd
  exact ⟨k, (h.registry k).kept hk (hne k (hp.workers k _ hk))⟩

/-- A step of a thread keeps `PoolThread.SlotListed` of it. -/
theorem PoolTrans.slotListed {p p' : Pool κ H} {t t' : PoolThread κ H} {a : PoolLabel κ H}
    (h : PoolTrans p t a p' t') (hp : p.Tagged) (hin : t.Installed) (hL : t.SlotListed p) :
    t'.SlotListed p' := by
  intro id d hslot hex
  have unchanged : t.slot = some (id, d) → ¬ t.pc.exempt id → t.changes a = none →
      p'.Listed id d := by
    intro hs he hc
    refine h.listed hp (hL id d hs he) fun k _ heq => ?_
    rw [hc] at heq
    cases heq
  have h' := h
  cases h with
  | dropGuard =>
    refine h'.listed hp (hL id d hslot nofun) fun k _ heq => ?_
    cases heq
    exact hex rfl
  | @register slot k id' worker =>
    have hown : slot = some (id', worker) := hin k id' worker rfl
    subst hown
    cases hslot
    refine ⟨k, ?_⟩
    simp [Pool.register, Pool.setRegistry, WorkerRegistry.register,
      WorkerRegistry.rebuildStealersCache]
  | takeAny | takeNone | takeLocal => cases hslot
  | install => exact (hex trivial).elim
  | @takeLocalNone slot g hne =>
    refine unchanged hslot (fun he => hne ?_) rfl
    have hs : slot = some (id, d) := hslot
    have hid : g.id = id := he
    rw [hs, hid]
    rfl
  | _ => exact unchanged hslot (fun he => he) rfl

/-- `PoolThread.SlotListed` in every state reached under the guard. -/
theorem reachable_slotListed (h : (poolMachine κ H ι).Reachable ownDeques c) (j : ι) :
    (c.loc j).SlotListed c.shared := by
  refine pool_local (L := fun _ p t => t.SlotListed p)
    (J := (poolMachine κ H ι).Reachable ownDeques) h (fun _ h => h) (fun _ => nofun) ?_ ?_ j
  · intro c i a p' t t' hr _ hi hL ht
    exact ht.slotListed (reachable_tagged hr).1 (hi ▸ reachable_installed hr i) hL
  · intro c i a p' t t' j hr hG hi hj ht hL id d hslot hex
    refine ht.listed (reachable_tagged hr).1 (hL id d hslot hex) fun k hk hchanges => ?_
    refine hG (k, id) (by rw [hi]; exact hchanges) j hj ?_
    rw [localOwner, hslot]
    exact hk

/-! ## The result -/

/-- The deque `d` is one that the registered workers can steal from. -/
def Pool.Registered (p : Pool κ H) (d : DequeId) : Prop :=
  ∃ k, ∃ e ∈ (p.core k).registry.stealersCache, e.stealer = d

/-- A thread is in the middle of flushing a deque: it drains it, or is about to take it back. -/
def PoolThread.Flushes (t : PoolThread κ H) (d : DequeId) : Prop :=
  (∃ loop, t.pc.loop = some loop ∧ loop.deque = d) ∨
    ∃ g, t.pc = .takeLocal g ∧ t.slot = some (g.id, d)

/-- Every queued task can be found by a registered worker. -/
structure QueuesReachable (c : PoolConfig κ H ι) : Prop where
  /-- A deque with tasks is registered, or a thread is in the middle of flushing it. -/
  queued : ∀ d, c.shared.deque d ≠ [] → c.shared.Registered d ∨ ∃ i, (c.loc i).Flushes d
  /-- What a thread spawns between two operations goes to a registered deque, or to the injector. -/
  slots : ∀ i, (c.loc i).pc = .idle → ∀ id d, (c.loc i).slot = some (id, d) →
    c.shared.Registered d

omit [DecidableEq κ] in
/-- What is registered is in the list of stealers. -/
theorem Pool.Listed.registered {p : Pool κ H} (hp : p.Tagged) {id : WorkerId} {d : DequeId}
    (h : p.Listed id d) : p.Registered d := by
  obtain ⟨k, hk⟩ := h
  exact ⟨k, ⟨id, d⟩, hp.cache k ▸ hk, rfl⟩

section
variable [Fintype ι]

/-- Every queued task stays within reach of the registered workers, under every interleaving of
registrations, spawns, `find_task` and drops of guards on any thread, if no other thread has the
local deque of the worker that is registered or deregistered: a deque with tasks is one that the
registered workers steal from, or an operation under way is flushing it, and the local deque of a
thread between two operations is registered. -/
theorem queues_reachable (h : (poolMachine κ H ι).Reachable ownDeques c) : QueuesReachable c := by
  have hpool := (reachable_tagged h).1
  constructor
  · intro d hd
    obtain ⟨hmade, hret⟩ := reachable_dequesLive h d hd
    obtain ⟨i, hi⟩ := exists_held h hmade hret
    have no_install : ∀ r, (c.loc i).pc.installs = some r → r.deque ≠ d := by
      rintro r hr rfl
      exact hd (reachable_installs_empty h i r hr)
    rcases Multiset.mem_add.1 hi with hslot | hpc
    · obtain ⟨id, hs⟩ : ∃ id, (c.loc i).slot = some (id, d) := by
        cases hs : (c.loc i).slot with
        | none =>
          rw [hs] at hslot
          exact absurd hslot (Multiset.notMem_zero d)
        | some owned =>
          rw [hs] at hslot
          exact ⟨owned.1, by rw [Multiset.mem_singleton.1 hslot]⟩
      by_cases hex : (c.loc i).pc.exempt id
      · cases hpc : (c.loc i).pc with
        | register k id' worker =>
          have hown := reachable_installed h i k id' worker hpc
          rw [hs] at hown
          cases hown
          exact absurd rfl (no_install ⟨k, id, d⟩ (by rw [hpc]; rfl))
        | takeLocal g =>
          rw [hpc] at hex
          have hid : g.id = id := hex
          exact .inr ⟨i, .inr ⟨g, hpc, by rw [hid, hs]⟩⟩
        | _ =>
          rw [hpc] at hex
          cases hex
      · exact .inl ((reachable_slotListed h i id d hs hex).registered hpool)
    · rcases PoolPc.held_cases hpc with hloop | ⟨r, hr, hrd⟩
      · exact .inr ⟨i, .inl hloop⟩
      · exact absurd hrd (no_install r hr)
  · intro i hidle id d hs
    have hex : ¬ (c.loc i).pc.exempt id := by
      rw [hidle]
      exact nofun
    exact (reachable_slotListed h i id d hs hex).registered hpool

instance (c : PoolConfig κ H ι) (a : ι × PoolLabel κ H) : Decidable (ownDeques c a) :=
  inferInstanceAs (Decidable (∀ w ∈ (c.loc a.1).changes a.2, _))

end

/-- A thread that registers twice, spawns a task and drops the guards, the older one first. -/
def dropInOrderRun : List (Bool × PoolLabel Unit ℕ) :=
  [(false, .newWorker ()), (false, .go), (false, .go), (false, .go), (false, .handOff () 7),
    (false, .newWorker ()), (false, .go), (false, .go), (false, .go), (false, .go), (false, .go),
    (false, .go), (false, .go), (false, .handOff () 8), (false, .dropGuard ⟨(), 1, 0⟩),
    (false, .go), (true, .newWorker ()), (true, .go), (true, .go), (true, .go)]

/-- In that run the second deque stays registered. -/
theorem queues_reachable_nested :
    ∃ c, (poolMachine Unit ℕ Bool).runIf ownDeques (poolMachine Unit ℕ Bool).init
        dropInOrderRun = some c ∧
      (c.shared.core ()).injector = [7] ∧ c.shared.deque 1 = [8] ∧ QueuesReachable c :=
  ⟨_, rfl, rfl, rfl, queues_reachable (Machine.reach_of_runIf dropInOrderRun rfl)⟩

/-- A guard that is dropped on another thread than its worker was registered on, and a task that the
first thread spawns after it. -/
def dropElsewhereRun : List (Bool × PoolLabel Unit ℕ) :=
  [(false, .newWorker ()), (false, .go), (false, .go), (false, .go), (true, .dropGuard ⟨(), 1, 0⟩),
    (true, .go), (false, .handOff () 7)]

/-- After that run the task is in a deque that no registered worker owns, with no operation under
way. -/
theorem dropped_on_another_thread :
    ∃ c, (poolMachine Unit ℕ Bool).run (poolMachine Unit ℕ Bool).init dropElsewhereRun =
        some c ∧
      (∀ i, (c.loc i).pc = .idle) ∧ c.shared.deque 0 = [7] ∧
      (c.shared.core ()).registry.stealersCache = [] ∧ ¬ QueuesReachable c := by
  refine ⟨_, rfl, by decide, rfl, rfl, fun hreach => ?_⟩
  obtain ⟨k, e, he, -⟩ := hreach.slots false rfl 1 0 rfl
  cases he

end Hypertile
