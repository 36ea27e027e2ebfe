import Hypertile.Pool.Conservation

/-!
# What a guard takes when it is dropped

Each deque is made by one registration, so the deque in a slot tells which registration installed
it; `Pool.madeFor` records it, and `reachable_tagged` says that the slots, the guards and the
registries agree with it. The code has the id of the worker only, and ids are unique in a core, not
across cores: the drop of a guard keeps to its own deque exactly when the deque in the slot has not
the guard's id from another registration (`drop_law_iff`).
-/

namespace Hypertile

open Machine Machine.Threads

variable {κ H : Type} [DecidableEq κ]

/-! ## The registries -/

/-- The worker that a step registers or deregisters. -/
def PoolThread.changes (t : PoolThread κ H) (a : PoolLabel κ H) : Option (κ × WorkerId) :=
  match t.pc, a with
  | .idle, .dropGuard g => some (g.core, g.id)
  | .register k id _, .go => some (k, id)
  | _, _ => none

/-- How a step of a thread changes the registry of a core. -/
inductive RegistryTrans (t : PoolThread κ H) (a : PoolLabel κ H) (k : κ) (r : WorkerRegistry) :
    WorkerRegistry → Prop
  | same : RegistryTrans t a k r r
  | allocate : RegistryTrans t a k r r.allocateId.2
  | register {id : WorkerId} {worker : DequeId} (ht : t.pc = .register k id worker)
      (hw : t.changes a = some (k, id)) : RegistryTrans t a k r (r.register ⟨id, worker⟩)
  | deregister {id : WorkerId} (hw : t.changes a = some (k, id)) :
      RegistryTrans t a k r (r.deregister id)

namespace Pool

variable {p : Pool κ H} {k j : κ}

@[simp] theorem setCore_self (core : ExecutorCore H) : (p.setCore k core).core k = core :=
  Function.update_self ..

/-- Changing a core leaves the others. -/
theorem setCore_of_ne (h : j ≠ k) (core : ExecutorCore H) :
    (p.setCore k core).core j = p.core j :=
  Function.update_of_ne h ..

/-- A registry after one is changed. -/
theorem setRegistry_trans {t : PoolThread κ H} {a : PoolLabel κ H} {r : WorkerRegistry}
    (h : RegistryTrans t a k (p.core k).registry r) (j : κ) :
    RegistryTrans t a j (p.core j).registry ((p.setRegistry k r).core j).registry := by
  by_cases hj : j = k
  · subst hj
    simpa [setRegistry] using h
  · rw [setRegistry, setCore_of_ne hj]
    exact .same

end Pool

/-- Every step changes a registry in one of these ways. -/
theorem PoolTrans.registry {p p' : Pool κ H} {t t' : PoolThread κ H} {a : PoolLabel κ H}
    (h : PoolTrans p t a p' t') (k : κ) :
    RegistryTrans t a k (p.core k).registry (p'.core k).registry := by
  have same : ∀ {r}, r = (p.core k).registry → RegistryTrans t a k (p.core k).registry r := by
    rintro r rfl
    exact .same
  cases h with
  | newWorker => exact Pool.setRegistry_trans .allocate k
  | register => exact Pool.setRegistry_trans (.register rfl rfl) k
  | dropGuard => exact Pool.setRegistry_trans (.deregister rfl) k
  | @shutdown _ j =>
    by_cases hk : k = j
    · subst hk
      rw [Pool.setCore_self]
      exact .same
    · rw [Pool.setCore_of_ne hk]
      exact .same
  | push => exact same ((SameWorkers.setInjector ..).registry k)
  | fetch hf | fetchNone hf | findGot _ hf | findNext _ hf =>
    exact same (hf.sameWorkers.registry k)
  | _ => exact .same

namespace RegistryTrans

variable {t : PoolThread κ H} {a : PoolLabel κ H} {k : κ} {r r' : WorkerRegistry} {e : WorkerEntry}

omit [DecidableEq κ] in
/-- An entry of the changed registry was there, or the thread has just registered it. -/
theorem mem (h : RegistryTrans t a k r r') (he : e ∈ r'.workers) :
    e ∈ r.workers ∨ t.pc = .register k e.id e.stealer := by
  cases h with
  | same | allocate => exact .inl he
  | register ht _ =>
    rcases List.mem_cons.1 he with rfl | he
    · exact .inr ht
    · exact .inl (List.mem_of_mem_filter he)
  | deregister => exact .inl (List.mem_of_mem_filter he)

omit [DecidableEq κ] in
/-- An entry is kept, unless the step registers or deregisters a worker with its id. -/
theorem kept (h : RegistryTrans t a k r r') (he : e ∈ r.workers)
    (hne : t.changes a ≠ some (k, e.id)) : e ∈ r'.workers := by
  cases h with
  | same | allocate => exact he
  | @register id _ _ hw | @deregister id hw =>
    have hid : e.id ≠ id := by
      rintro rfl
      exact hne hw
    have hkept : e ∈ r.workers.filter (·.id ≠ id) :=
      List.mem_filter.2 ⟨he, by simpa using hid⟩
    first
    | exact List.mem_cons_of_mem _ hkept
    | exact hkept

omit [DecidableEq κ] in
/-- The cache of stealers is rebuilt whenever the workers change. -/
theorem cache (h : RegistryTrans t a k r r') (hr : r.stealersCache = r.workers) :
    r'.stealersCache = r'.workers := by
  cases h with
  | same | allocate => exact hr
  | register | deregister => rfl

omit [DecidableEq κ] in
/-- No two workers of a registry have one id. -/
theorem nodup (h : RegistryTrans t a k r r') (hr : (r.workers.map (·.id)).Nodup) :
    (r'.workers.map (·.id)).Nodup := by
  have hfilter : ∀ id, ((r.workers.filter (·.id ≠ id)).map (·.id)).Nodup := fun id =>
    hr.sublist (List.filter_sublist.map _)
  cases h with
  | same | allocate => exact hr
  | @register id =>
    refine List.nodup_cons.2 ⟨fun hmem => ?_, hfilter id⟩
    obtain ⟨e, he, hid⟩ := List.mem_map.1 hmem
    simpa [hid] using List.of_mem_filter he
  | deregister => exact hfilter _

end RegistryTrans

/-! ## The worker that a deque was made for -/

/-- The registration that goes on after a drain loop. -/
def Drain.installs (loop : Drain κ) : Option (Registration κ) :=
  match loop.after with
  | .install id worker => some ⟨loop.core, id, worker⟩
  | .done => none

namespace PoolPc

/-- The registration that a thread has under way, with the deque that it installs. -/
def installs : PoolPc κ H → Option (Registration κ)
  | .takeAny k id worker | .install k id worker | .register k id worker => some ⟨k, id, worker⟩
  | .drain loop => loop.installs
  | .inject _ _ loop | .push _ _ loop => loop.bind Drain.installs
  | _ => none

omit [DecidableEq κ] in
@[simp] theorem installs_afterInject (loop : Option (Drain κ)) :
    (afterInject (H := H) loop).installs = loop.bind Drain.installs := by
  cases loop <;> rfl

omit [DecidableEq κ] in
@[simp] theorem installs_exit (loop : Drain κ) :
    (loop.exit (H := H)).installs = loop.installs := by
  unfold Drain.exit Drain.installs
  cases loop.after <;> rfl

end PoolPc

/-- The deques that are not made yet are nobody's, and the guards and the registries agree with the
workers the deques were made for. -/
structure Pool.Tagged (p : Pool κ H) : Prop where
  fresh : ∀ d, p.nextDeque ≤ d → p.madeFor d = none
  guards : ∀ g ∈ p.guards, p.madeFor g.deque = some (g.core, g.id)
  workers : ∀ k, ∀ e ∈ (p.core k).registry.workers, p.madeFor e.stealer = some (k, e.id)
  cache : ∀ k, (p.core k).registry.stealersCache = (p.core k).registry.workers

/-- The slot of a thread and the registration it has under way agree with the workers the deques
were made for. -/
structure PoolThread.Tagged (p : Pool κ H) (t : PoolThread κ H) : Prop where
  slot : ∀ id d, t.slot = some (id, d) → ∃ k, p.madeFor d = some (k, id)
  installs : ∀ r, t.pc.installs = some r → p.madeFor r.deque = some (r.core, r.id)

namespace PoolTrans

variable {p p' : Pool κ H} {t t' : PoolThread κ H} {a : PoolLabel κ H}

/-- A deque stays the deque of the worker that it was made for. -/
theorem madeFor (h : PoolTrans p t a p' t') (hp : p.Tagged) {d : DequeId} {owner : κ × WorkerId}
    (hd : p.madeFor d = some owner) : p'.madeFor d = some owner := by
  cases h with
  | newWorker =>
    have hne : d ≠ p.nextDeque := by
      rintro rfl
      rw [hp.fresh _ le_rfl] at hd
      cases hd
    exact (Function.update_of_ne hne ..).trans hd
  | fetch hf | fetchNone hf | findGot _ hf | findNext _ hf =>
    exact hf.sameWorkers.madeFor ▸ hd
  | _ => exact hd

/-- No step makes the deques that follow the next one. -/
theorem fresh (h : PoolTrans p t a p' t') (hp : p.Tagged) (d : DequeId) (hd : p'.nextDeque ≤ d) :
    p'.madeFor d = none := by
  cases h with
  | newWorker =>
    have hlt : p.nextDeque < d := hd
    exact (Function.update_of_ne hlt.ne' ..).trans (hp.fresh d hlt.le)
  | fetch hf | fetchNone hf | findGot _ hf | findNext _ hf =>
    have hsame := hf.sameWorkers
    exact hsame.madeFor ▸ hp.fresh d (hsame.nextDeque ▸ hd)
  | _ => exact hp.fresh d hd

/-- A guard was there, or the thread has just registered its worker. -/
theorem guards (h : PoolTrans p t a p' t') {g : Registration κ} (hg : g ∈ p'.guards) :
    g ∈ p.guards ∨ t.pc = .register g.core g.id g.deque := by
  cases h with
  | dropGuard => exact .inl (List.mem_of_mem_erase hg)
  | register =>
    rcases List.mem_cons.1 hg with rfl | hg
    · exact .inr rfl
    · exact .inl hg
  | fetch hf | fetchNone hf | findGot _ hf | findNext _ hf =>
    exact .inl (hf.sameWorkers.guards ▸ hg)
  | _ => exact .inl hg

/-- `Pool.Tagged` across a step. -/
theorem tagged (h : PoolTrans p t a p' t') (hp : p.Tagged) (ht : t.Tagged p) : p'.Tagged := by
  have registered : ∀ {k id worker}, t.pc = .register k id worker →
      p'.madeFor worker = some (k, id) := by
    intro k id worker hpc
    exact h.madeFor hp (ht.installs ⟨k, id, worker⟩ (by rw [hpc]; rfl))
  refine ⟨h.fresh hp, ?_, ?_, fun k => (h.registry k).cache (hp.cache k)⟩
  · intro g hg
    rcases h.guards hg with hg | hpc
    · exact h.madeFor hp (hp.guards g hg)
    · exact registered hpc
  · intro k e he
    rcases (h.registry k).mem he with he | hpc
    · exact h.madeFor hp (hp.workers k e he)
    · exact registered hpc

/-- A step of another thread keeps `PoolThread.Tagged`. -/
theorem tagged_other (h : PoolTrans p t a p' t') (hp : p.Tagged) {u : PoolThread κ H}
    (hu : u.Tagged p) : u.Tagged p' := by
  refine ⟨fun id d hslot => ?_, fun r hr => h.madeFor hp (hu.installs r hr)⟩
  obtain ⟨k, hk⟩ := hu.slot id d hslot
  exact ⟨k, h.madeFor hp hk⟩

/-- `PoolThread.Tagged` across the thread's own step. -/
theorem tagged_own (h : PoolTrans p t a p' t') (hp : p.Tagged) (ht : t.Tagged p) :
    t'.Tagged p' := by
  obtain ⟨hslot, hinst⟩ := h.tagged_other hp ht
  cases h with
  | newWorker =>
    refine ⟨hslot, fun r hr => ?_⟩
    cases hr
    exact Function.update_self ..
  | takeAny | takeNone => exact ⟨nofun, hinst⟩
  | takeLocal => exact ⟨nofun, nofun⟩
  | injectLocal | push =>
    exact ⟨hslot, fun r hr => hinst r ((PoolPc.installs_afterInject _).symm.trans hr)⟩
  | injectBack | drain => exact ⟨hslot, hinst⟩
  | drainEnd =>
    exact ⟨hslot, fun r hr => hinst r ((PoolPc.installs_exit _).symm.trans hr)⟩
  | @install _ k id worker =>
    refine ⟨fun i d hd => ?_, hinst⟩
    cases hd
    exact ⟨k, hinst ⟨k, id, worker⟩ rfl⟩
  | _ => exact ⟨hslot, nofun⟩

end PoolTrans

section
variable {ι : Type} [DecidableEq ι] {c : PoolConfig κ H ι}
  {G : PoolConfig κ H ι → ι × PoolLabel κ H → Prop}

/-- Guards, registries, slots and registrations under way agree with the workers the deques were
made for, in every state reached. -/
theorem reachable_tagged (h : (poolMachine κ H ι).Reachable G c) :
    c.shared.Tagged ∧ ∀ j, (c.loc j).Tagged c.shared := by
  refine pool_invariant (J := fun _ => True)
    (I := fun c => c.shared.Tagged ∧ ∀ j, (c.loc j).Tagged c.shared) h (fun _ _ => trivial) ?_ ?_
  · exact ⟨⟨fun _ _ => rfl, nofun, nofun, fun _ => rfl⟩, fun _ => ⟨nofun, nofun⟩⟩
  · rintro c i a p' _ t' - ⟨hp, hthreads⟩ - rfl ht
    refine ⟨ht.tagged hp (hthreads i), fun j => ?_⟩
    by_cases hj : j = i
    · subst hj
      simpa using ht.tagged_own hp (hthreads j)
    · simpa [Function.update_of_ne hj] using ht.tagged_other hp (hthreads j)

/-- A registry has one entry at most for an id, in every state reached. -/
theorem reachable_ids (h : (poolMachine κ H ι).Reachable G c) (k : κ) :
    ((c.shared.core k).registry.workers.map (·.id)).Nodup := by
  refine pool_invariant (J := fun _ => True)
    (I := fun c => ((c.shared.core k).registry.workers.map (·.id)).Nodup) h (fun _ _ => trivial)
    List.nodup_nil ?_
  intro c i a p' t t' _ hI _ _ ht
  exact (ht.registry k).nodup hI

/-! ## The drop of a guard -/

variable {c' : PoolConfig κ H ι} {t : ι} {g : Registration κ}

/-- Thread `t` drops the guard `g` from `c` to `c'`, with no step of another thread in between. -/
def Drops (c : PoolConfig κ H ι) (t : ι) (g : Registration κ) (c' : PoolConfig κ H ι) : Prop :=
  ∃ c₁, (poolMachine κ H ι).step c (t, .dropGuard g) = some c₁ ∧
    (poolMachine κ H ι).Settles (t, .go) c₁ c'

/-- A thread drops a guard in one way. -/
theorem Drops.unique {c'' : PoolConfig κ H ι} (h : Drops c t g c') (h' : Drops c t g c'') :
    c' = c'' := by
  obtain ⟨c₁, hst, hsettles⟩ := h
  obtain ⟨c₂, hst', hsettles'⟩ := h'
  rw [hst] at hst'
  cases hst'
  exact hsettles.unique hsettles'

/-- What the drop of a guard may do to the thread that drops it. -/
structure DropLaw (c : PoolConfig κ H ι) (t : ι) (g : Registration κ) (c' : PoolConfig κ H ι) :
    Prop where
  /-- The deque that the guard's registration installed is taken and flushed to its core. -/
  own : ∀ id, (c.loc t).slot = some (id, g.deque) →
    (c'.loc t).slot = none ∧ c'.shared.deque g.deque = [] ∧
      (c'.shared.core g.core).injector =
        (c.shared.core g.core).injector ++ c.shared.deque g.deque
  /-- Another deque is left, with its tasks and the registration of its worker. -/
  other : ∀ id d, (c.loc t).slot = some (id, d) → d ≠ g.deque →
    (c'.loc t).slot = some (id, d) ∧ c'.shared.deque d = c.shared.deque d ∧
      ∀ k, (⟨id, d⟩ ∈ (c'.shared.core k).registry.workers ↔
        ⟨id, d⟩ ∈ (c.shared.core k).registry.workers)
  /-- Nothing is installed. -/
  empty : (c.loc t).slot = none → (c'.loc t).slot = none

/-- What a drain loop leaves at its end: the deque is empty and its tasks are in the injector. -/
structure Flushed (p : Pool κ H) (loop : Drain κ) (p' : Pool κ H) : Prop where
  deque : p'.deque loop.deque = []
  injector : (p'.core loop.core).injector = (p.core loop.core).injector ++ p.deque loop.deque

/-- The drain loop of a dropped guard moves the tasks of the deque to the injector, one after the
other. -/
theorem exists_settles_drain (f : ι → PoolThread κ H) (t : ι) : ∀ (tasks : List H) {p : Pool κ H}
    {loop : Drain κ}, loop.after = .done → p.deque loop.deque = tasks →
    ∃ p', (poolMachine κ H ι).Settles (t, .go) ⟨p, Function.update f t ⟨none, .drain loop⟩⟩
      ⟨p', Function.update f t ⟨none, .idle⟩⟩ ∧ Flushed p loop p'
  | [], p, loop, hdone, hd => by
    have hexit : loop.exit (H := H) = .idle := by rw [Drain.exit, hdone]
    have hst : poolStep p ⟨none, .drain loop⟩ .go =
        some (p.retire loop.deque, ⟨none, .idle⟩) := by
      simp only [poolStep, Pool.pop_nil hd, hexit]
    refine ⟨_, .step (step_update hst) (.done (step_update_none rfl)), hd, ?_⟩
    rw [hd, List.append_nil]
    rfl
  | task :: rest, p, loop, hdone, hd => by
    let loop' : Drain κ := { loop with left := loop.left - 1 }
    let p₁ := p.setDeque loop.deque rest
    let p₂ := p₁.pushInjector loop.core task
    have hst : poolStep p ⟨none, .drain loop⟩ .go =
        some (p₁, ⟨none, .inject loop.core task (some loop')⟩) := by
      simp only [poolStep, Pool.pop_cons hd]
      rfl
    have hinject : poolStep p₁ ⟨none, .inject loop.core task (some loop')⟩ .go =
        some (p₁, ⟨none, .push loop.core task (some loop')⟩) := rfl
    have hpush : poolStep p₁ ⟨none, .push loop.core task (some loop')⟩ .go =
        some (p₂, ⟨none, .drain loop'⟩) := rfl
    have hdone' : loop'.after = .done := hdone
    have hrest : p₂.deque loop'.deque = rest := Pool.setDeque_self
    obtain ⟨p', hsettles, hflushed⟩ := exists_settles_drain f t rest hdone' hrest
    refine ⟨p', .step (step_update hst) (.step (step_update hinject)
      (.step (step_update hpush) hsettles)), hflushed.deque, ?_⟩
    have hinjector : (p₂.core loop.core).injector = (p.core loop.core).injector ++ [task] := by
      simp [p₂, p₁, Pool.pushInjector, Pool.setInjector]
      rfl
    rw [hd, List.append_cons, ← hinjector, ← hrest]
    exact hflushed.injector

/-- A guard begins to be dropped by an idle thread. -/
theorem step_dropGuard {slot : Slot} (ht : c.loc t = ⟨slot, .idle⟩) (hg : g ∈ c.shared.guards) :
    (poolMachine κ H ι).step c (t, .dropGuard g) =
      some ⟨c.shared.deregister g, Function.update c.loc t ⟨slot, .takeLocal g⟩⟩ := by
  refine step_iff.2 ⟨_, _, ?_, rfl⟩
  show poolStep c.shared (c.loc t) (.dropGuard g) = _
  simp only [ht, poolStep, beginStep, if_pos hg, Option.map_some]

/-- A guard that finds its id in the slot takes the deque there and flushes it to its core. -/
theorem drops_tagged {d : DequeId} (ht : c.loc t = ⟨some (g.id, d), .idle⟩)
    (hg : g ∈ c.shared.guards) :
    ∃ c', Drops c t g c' ∧ c'.loc t = ⟨none, .idle⟩ ∧ c'.shared.deque d = [] ∧
      (c'.shared.core g.core).injector =
        (c.shared.core g.core).injector ++ c.shared.deque d := by
  let p := c.shared.deregister g
  let loop : Drain κ := ⟨g.core, d, (p.deque d).length, .done⟩
  have htake : poolStep p ⟨some (g.id, d), .takeLocal g⟩ .go = some (p, ⟨none, .drain loop⟩) := by
    simp only [poolStep, takeLocalWorker, if_pos]
    rfl
  obtain ⟨p', hsettles, hflushed⟩ :=
    exists_settles_drain c.loc t (p.deque d) (show loop.after = .done from rfl) rfl
  have hinjector : (p.core g.core).injector = (c.shared.core g.core).injector := by
    simp [p, Pool.deregister, Pool.setRegistry]
  refine ⟨_, ⟨_, step_dropGuard ht hg, .step (step_update htake) hsettles⟩,
    Function.update_self .., hflushed.deque, ?_⟩
  rw [← hinjector]
  exact hflushed.injector

/-- A guard that does not find its id in the slot is only deregistered. -/
theorem drops_untagged (ht : (c.loc t).pc = .idle) (hg : g ∈ c.shared.guards)
    (hslot : (c.loc t).slot.map Prod.fst ≠ some g.id) :
    ∃ c', Drops c t g c' ∧ c'.loc t = c.loc t ∧ c'.shared = c.shared.deregister g := by
  obtain ⟨slot, hloc⟩ : ∃ slot, c.loc t = ⟨slot, .idle⟩ := ⟨(c.loc t).slot, by rw [← ht]⟩
  rw [hloc] at hslot
  have htake : poolStep (c.shared.deregister g) ⟨slot, .takeLocal g⟩ .go =
      some (c.shared.deregister g, ⟨slot, .idle⟩) := by
    cases slot with
    | none => rfl
    | some owned =>
      have hid : owned.1 ≠ g.id := by simpa using hslot
      simp only [poolStep, takeLocalWorker, if_neg hid]
  refine ⟨_, ⟨_, step_dropGuard hloc hg, .step (step_update htake) (.done (step_update_none rfl))⟩,
    ?_, rfl⟩
  rw [hloc]
  exact Function.update_self ..

/-- Deregistering a worker keeps the entries of the others. -/
theorem Pool.mem_workers_deregister {p : Pool κ H} {e : WorkerEntry} (he : e.id ≠ g.id) (k : κ) :
    e ∈ ((p.deregister g).core k).registry.workers ↔ e ∈ (p.core k).registry.workers := by
  show e ∈ ((p.setRegistry g.core
    ((p.core g.core).registry.deregister g.id)).core k).registry.workers ↔ _
  by_cases hk : k = g.core
  · subst hk
    simp [Pool.setRegistry, WorkerRegistry.deregister, WorkerRegistry.rebuildStealersCache, he]
  · rw [Pool.setRegistry, Pool.setCore_of_ne hk]

/-- The drop of a guard keeps to the deque of its own registration exactly when the deque in the
slot has not the guard's id from another registration. The thread and the pool are in any state of
any run before; the drop ends, in one way. -/
theorem drop_law_iff (h : (poolMachine κ H ι).Reachable anyStep c) (ht : (c.loc t).pc = .idle)
    (hg : g ∈ c.shared.guards) :
    ∃ c', (∀ c'', Drops c t g c'' ↔ c'' = c') ∧ (c'.loc t).pc = .idle ∧
      (DropLaw c t g c' ↔ ∀ d, (c.loc t).slot = some (g.id, d) → d = g.deque) := by
  have only : ∀ {c'}, Drops c t g c' → ∀ c'', Drops c t g c'' ↔ c'' = c' := by
    intro c' hc' c''
    constructor
    · intro hc''
      exact hc''.unique hc'
    · rintro rfl
      exact hc'
  by_cases htag : (c.loc t).slot.map Prod.fst = some g.id
  · obtain ⟨⟨id, d⟩, hslot, rfl⟩ := Option.map_eq_some_iff.1 htag
    have hloc : c.loc t = ⟨some (g.id, d), .idle⟩ := by rw [← ht, ← hslot]
    obtain ⟨c', hdrops, hloc', hdeque, hinjector⟩ := drops_tagged hloc hg
    refine ⟨c', only hdrops, by rw [hloc'], ?_, ?_⟩
    · intro hlaw d' hd'
      by_contra hne
      have hkept := (hlaw.other _ d' hd' hne).1
      rw [hloc'] at hkept
      cases hkept
    · intro hown
      have hd : d = g.deque := hown d hslot
      subst hd
      refine ⟨fun _ _ => ⟨by rw [hloc'], hdeque, hinjector⟩, ?_, by simp [hslot]⟩
      intro id d' hd' hne
      rw [hslot] at hd'
      cases hd'
      exact absurd rfl hne
  · obtain ⟨c', hdrops, hloc', hshared⟩ := drops_untagged ht hg htag
    refine ⟨c', only hdrops, by rw [hloc', ht], ?_⟩
    constructor
    · intro _ d hd
      exact absurd (by rw [hd]; rfl) htag
    · intro _
      obtain ⟨hpool, hthreads⟩ := reachable_tagged h
      refine ⟨?_, ?_, by simp [hloc']⟩
      · intro id hslot
        -- the registration of the deque in the slot is the guard's, so the ids agree
        obtain ⟨k, hk⟩ := (hthreads t).slot id g.deque hslot
        have hguard := hpool.guards g hg
        rw [hk] at hguard
        cases hguard
        exact absurd (by rw [hslot]; rfl) htag
      · intro id d hslot _
        have hid : id ≠ g.id := by
          rintro rfl
          exact htag (by rw [hslot]; rfl)
        refine ⟨by rw [hloc', hslot], by rw [hshared]; rfl, fun k => ?_⟩
        rw [hshared]
        exact Pool.mem_workers_deregister hid k

end

/-- A thread that registers with the core `false`, then with `true`, and spawns a task. -/
def twoCoresRun : List (Unit × PoolLabel Bool ℕ) :=
  [((), .newWorker false), ((), .go), ((), .go), ((), .go), ((), .newWorker true), ((), .go),
    ((), .go), ((), .go), ((), .go), ((), .handOff true 7)]

/-- After that run the guard of the second registration takes its own deque. -/
theorem drop_law_iff_newest :
    ∃ c, (poolMachine Bool ℕ Unit).run (poolMachine Bool ℕ Unit).init twoCoresRun = some c ∧
      ∃ c', (∀ c'', Drops c () ⟨true, 1, 1⟩ c'' ↔ c'' = c') ∧ (c'.loc ()).pc = .idle ∧
        (DropLaw c () ⟨true, 1, 1⟩ c' ↔ ∀ d, (c.loc ()).slot = some (1, d) → d = 1) :=
  ⟨_, rfl, drop_law_iff (Machine.reach_of_run twoCoresRun rfl) rfl (by decide)⟩

/-- After that run the guard of the first registration takes the deque of the second, as both cores
gave out the id 1, and flushes its task to the injector of the first core. -/
theorem stale_guard_takes_newer_queue :
    ∃ c, (poolMachine Bool ℕ Unit).run (poolMachine Bool ℕ Unit).init twoCoresRun = some c ∧
      c.loc () = ⟨some (1, 1), .idle⟩ ∧
      c.shared.guards = [⟨true, 1, 1⟩, ⟨false, 1, 0⟩] ∧ c.shared.deque 1 = [7] ∧
      ∃ c', Drops c () ⟨false, 1, 0⟩ c' ∧ c'.loc () = ⟨none, .idle⟩ ∧
        (c'.shared.core false).injector = [7] ∧ ¬ DropLaw c () ⟨false, 1, 0⟩ c' := by
  refine ⟨_, rfl, rfl, rfl, rfl, _, ⟨_, rfl, .step rfl (.step rfl (.step rfl (.step rfl
    (.step rfl (.done rfl)))))⟩, rfl, rfl, fun hlaw => ?_⟩
  have hkept := (hlaw.other 1 1 rfl (by decide)).1
  cases hkept

end Hypertile
