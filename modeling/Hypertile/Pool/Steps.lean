import Hypertile.Pool.Core

/-!
# The steps of the pool

`FetchTrans` says what one attempt to get a task can do to the queues, and `PoolTrans` lists the
steps of a thread, one constructor for each way a step of the code can go. `poolStep_trans` reads a
step of `poolStep` back as one of them.
-/

namespace Hypertile

variable {κ H : Type} [DecidableEq κ]

/-- What one attempt to get a task does to the queues, for a thread with this slot. -/
inductive FetchTrans (p : Pool κ H) (slot : Slot) : Source κ → Pool κ H → Steal H → Prop
  | nothing {source : Source κ} {r : Steal H} (hr : ∀ task, r ≠ .success task) :
      FetchTrans p slot source p r
  | popped {source : Source κ} {id : WorkerId} {d : DequeId} {task : H} {rest : List H}
      (hslot : slot = some (id, d)) (hd : p.deque d = task :: rest) :
      FetchTrans p slot source (p.setDeque d rest) (.success task)
  | injector {k : κ} {n : ℕ} {task : H} {rest : List H} (hk : (p.core k).injector = task :: rest) :
      FetchTrans p slot (.injector k)
        ((p.setInjector k (rest.drop (batchSize slot n))).receive slot
          (rest.take (batchSize slot n))) (.success task)
  | stolen {d : DequeId} {n : ℕ} {task : H} {rest : List H} (hslot : slot.map Prod.snd ≠ some d)
      (hd : p.deque d = task :: rest) :
      FetchTrans p slot (.stealer d)
        ((p.setDeque d (rest.drop (batchSize slot n))).receive slot
          (rest.take (batchSize slot n))) (.success task)

omit [DecidableEq κ] in
/-- `Worker::pop` of an empty deque. -/
theorem Pool.pop_nil {p : Pool κ H} {d : DequeId} (hd : p.deque d = []) :
    p.pop d = (p, .empty) := by
  rw [Pool.pop, hd]

omit [DecidableEq κ] in
/-- `Worker::pop` of a deque with a task at its front. -/
theorem Pool.pop_cons {p : Pool κ H} {d : DequeId} {task : H} {rest : List H}
    (hd : p.deque d = task :: rest) : p.pop d = (p.setDeque d rest, .success task) := by
  rw [Pool.pop, hd]

/-- `Worker::pop` on the deque in the slot. -/
theorem pop_trans {p p' : Pool κ H} {slot : Slot} {source : Source κ} {id : WorkerId} {d : DequeId}
    {r : Steal H} (hslot : slot = some (id, d)) (h : p.pop d = (p', r)) :
    FetchTrans p slot source p' r := by
  cases hd : p.deque d with
  | nil =>
    rw [Pool.pop_nil hd] at h
    cases h
    exact .nothing nofun
  | cons task rest =>
    rw [Pool.pop_cons hd] at h
    cases h
    exact .popped hslot hd

/-- Every attempt to get a task is one of these. -/
theorem fetch_trans {p p' : Pool κ H} {slot : Slot} {ch : Choice} {source : Source κ} {r : Steal H}
    (h : p.fetch slot ch source = (p', r)) : FetchTrans p slot source p' r := by
  cases source with
  | injector k =>
    cases ch with
    | retry => cases h; exact .nothing nofun
    | batch n =>
      simp only [Pool.fetch, Pool.stealInjectorIntoLocal] at h
      split at h
      · cases h
        exact .nothing nofun
      · next hk =>
        cases h
        exact .injector hk
  | «local» =>
    simp only [Pool.fetch, Pool.localPop] at h
    split at h
    · exact pop_trans rfl h
    · cases h
      exact .nothing nofun
  | stealer d =>
    simp only [Pool.fetch, Pool.stealIntoLocal] at h
    split at h
    · next hown =>
      obtain ⟨⟨id, d'⟩, hslot, rfl⟩ := Option.map_eq_some_iff.1 hown
      exact pop_trans hslot h
    · next hown =>
      cases ch with
      | retry => cases h; exact .nothing nofun
      | batch n =>
        simp only at h
        split at h
        · cases h
          exact .nothing nofun
        · next hd =>
          cases h
          exact .stolen hown hd

/-- What moving tasks between queues leaves as it is. -/
structure SameWorkers (p p' : Pool κ H) : Prop where
  nextDeque : p'.nextDeque = p.nextDeque
  madeFor : p'.madeFor = p.madeFor
  retired : p'.retired = p.retired
  handles : p'.handles = p.handles
  guards : p'.guards = p.guards
  injected : p'.injected = p.injected
  returned : p'.returned = p.returned
  registry : ∀ k, (p'.core k).registry = (p.core k).registry

namespace SameWorkers

variable {p p' p'' : Pool κ H}

omit [DecidableEq κ] in
/-- Nothing is moved. -/
theorem refl (p : Pool κ H) : SameWorkers p p := ⟨rfl, rfl, rfl, rfl, rfl, rfl, rfl, fun _ => rfl⟩

omit [DecidableEq κ] in
/-- Tasks are moved twice. -/
theorem trans (h : SameWorkers p p') (h' : SameWorkers p' p'') : SameWorkers p p'' :=
  ⟨h'.nextDeque.trans h.nextDeque, h'.madeFor.trans h.madeFor, h'.retired.trans h.retired,
    h'.handles.trans h.handles, h'.guards.trans h.guards, h'.injected.trans h.injected,
    h'.returned.trans h.returned, fun k => (h'.registry k).trans (h.registry k)⟩

omit [DecidableEq κ] in
/-- A deque is filled anew. -/
theorem setDeque (p : Pool κ H) (d : DequeId) (tasks : List H) :
    SameWorkers p (p.setDeque d tasks) := ⟨rfl, rfl, rfl, rfl, rfl, rfl, rfl, fun _ => rfl⟩

/-- An injector is filled anew. -/
theorem setInjector (p : Pool κ H) (k : κ) (tasks : List H) :
    SameWorkers p (p.setInjector k tasks) := by
  refine ⟨rfl, rfl, rfl, rfl, rfl, rfl, rfl, fun j => ?_⟩
  by_cases hj : j = k
  · subst hj
    simp [Pool.setInjector, Pool.setCore]
  · simp [Pool.setInjector, Pool.setCore, hj]

omit [DecidableEq κ] in
/-- A batch is received. -/
theorem receive (p : Pool κ H) (slot : Slot) (tasks : List H) :
    SameWorkers p (p.receive slot tasks) := by
  cases slot with
  | none => exact refl p
  | some owned => exact setDeque ..

end SameWorkers

/-- An attempt to get a task only moves tasks. -/
theorem FetchTrans.sameWorkers {p p' : Pool κ H} {slot : Slot} {source : Source κ} {r : Steal H}
    (h : FetchTrans p slot source p' r) : SameWorkers p p' := by
  cases h with
  | nothing => exact .refl p
  | popped => exact .setDeque ..
  | injector => exact (SameWorkers.setInjector ..).trans (.receive ..)
  | stolen => exact (SameWorkers.setDeque ..).trans (.receive ..)

/-- `PoolTrans p t a p' t'`: a thread at `t` can take the step `a` from the shared state `p`, to
`p'` and `t'`. -/
inductive PoolTrans (p : Pool κ H) :
    PoolThread κ H → PoolLabel κ H → Pool κ H → PoolThread κ H → Prop
  | inject {slot : Slot} {k : κ} {task : H} :
      PoolTrans p ⟨slot, .idle⟩ (.inject k task) (p.recordInjected task)
        ⟨slot, .inject k task none⟩
  | handOffLocal {id : WorkerId} {d : DequeId} {k : κ} {task : H} :
      PoolTrans p ⟨some (id, d), .idle⟩ (.handOff k task) ((p.recordInjected task).push d task)
        ⟨some (id, d), .idle⟩
  | handOff {k : κ} {task : H} :
      PoolTrans p ⟨none, .idle⟩ (.handOff k task) (p.recordInjected task)
        ⟨none, .inject k task none⟩
  | tryPushLocal {id : WorkerId} {d : DequeId} {task : H} :
      PoolTrans p ⟨some (id, d), .idle⟩ (.tryPushLocal task) ((p.recordInjected task).push d task)
        ⟨some (id, d), .idle⟩
  | tryPushBack {task : H} : PoolTrans p ⟨none, .idle⟩ (.tryPushLocal task) p ⟨none, .idle⟩
  | fetch {slot : Slot} {k : κ} {source : Source κ} {ch : Choice} {p' : Pool κ H} {task : H}
      (hf : FetchTrans p slot source p' (.success task)) :
      PoolTrans p ⟨slot, .idle⟩ (.fetch k source ch) (p'.recordReturned k task) ⟨slot, .idle⟩
  | fetchNone {slot : Slot} {k : κ} {source : Source κ} {ch : Choice} {p' : Pool κ H} {r : Steal H}
      (hf : FetchTrans p slot source p' r) (hr : ∀ task, r ≠ .success task) :
      PoolTrans p ⟨slot, .idle⟩ (.fetch k source ch) p' ⟨slot, .idle⟩
  | findTask {slot : Slot} {w : Registration κ} {pc : FindPc WorkerEntry} (hw : w ∈ p.handles)
      (hpc : pc = .injectorFirst ∨ pc = .localDeque) :
      PoolTrans p ⟨slot, .idle⟩ (.findTask w)
        { p with tick := Function.update p.tick w.deque ((p.tick w.deque + 1) % 2 ^ 64) }
        ⟨slot, .find w pc⟩
  | newWorker {slot : Slot} {k : κ} :
      PoolTrans p ⟨slot, .idle⟩ (.newWorker k)
        ((p.setRegistry k (p.core k).registry.allocateId.2).newDeque k (p.core k).registry.nextId).2
        ⟨slot, .takeAny k (p.core k).registry.nextId p.nextDeque⟩
  | dropGuard {slot : Slot} {g : Registration κ} (hg : g ∈ p.guards) :
      PoolTrans p ⟨slot, .idle⟩ (.dropGuard g) (p.deregister g) ⟨slot, .takeLocal g⟩
  | shutdown {slot : Slot} {k : κ} :
      PoolTrans p ⟨slot, .idle⟩ (.shutdown k) (p.setCore k { p.core k with running := false })
        ⟨slot, .idle⟩
  | injectLocal {id : WorkerId} {d : DequeId} {k : κ} {task : H} {loop : Option (Drain κ)} :
      PoolTrans p ⟨some (id, d), .inject k task loop⟩ .go (p.push d task)
        ⟨some (id, d), afterInject loop⟩
  | injectBack {k : κ} {task : H} {loop : Option (Drain κ)} :
      PoolTrans p ⟨none, .inject k task loop⟩ .go p ⟨none, .push k task loop⟩
  | push {slot : Slot} {k : κ} {task : H} {loop : Option (Drain κ)} :
      PoolTrans p ⟨slot, .push k task loop⟩ .go (p.pushInjector k task) ⟨slot, afterInject loop⟩
  | takeAny {owner id : WorkerId} {d worker : DequeId} {k : κ} :
      PoolTrans p ⟨some (owner, d), .takeAny k id worker⟩ .go p
        ⟨none, .drain ⟨k, d, (p.deque d).length, .install id worker⟩⟩
  | takeNone {id : WorkerId} {worker : DequeId} {k : κ} :
      PoolTrans p ⟨none, .takeAny k id worker⟩ .go p ⟨none, .install k id worker⟩
  | drain {slot : Slot} {loop : Drain κ} {task : H} {rest : List H}
      (hd : p.deque loop.deque = task :: rest) :
      PoolTrans p ⟨slot, .drain loop⟩ .go (p.setDeque loop.deque rest)
        ⟨slot, .inject loop.core task (some { loop with left := loop.left - 1 })⟩
  | drainEnd {slot : Slot} {loop : Drain κ} (hd : p.deque loop.deque = []) :
      PoolTrans p ⟨slot, .drain loop⟩ .go (p.retire loop.deque) ⟨slot, loop.exit⟩
  | install {slot : Slot} {k : κ} {id : WorkerId} {worker : DequeId} :
      PoolTrans p ⟨slot, .install k id worker⟩ .go p ⟨some (id, worker), .register k id worker⟩
  | register {slot : Slot} {k : κ} {id : WorkerId} {worker : DequeId} :
      PoolTrans p ⟨slot, .register k id worker⟩ .go (p.register ⟨k, id, worker⟩) ⟨slot, .idle⟩
  | takeLocal {g : Registration κ} {d : DequeId} :
      PoolTrans p ⟨some (g.id, d), .takeLocal g⟩ .go p
        ⟨none, .drain ⟨g.core, d, (p.deque d).length, .done⟩⟩
  | takeLocalNone {slot : Slot} {g : Registration κ} (hslot : slot.map Prod.fst ≠ some g.id) :
      PoolTrans p ⟨slot, .takeLocal g⟩ .go p ⟨slot, .idle⟩
  | findGot {slot : Slot} {w : Registration κ} {pc : FindPc WorkerEntry} {source : Source κ}
      {ch : Choice} {p' : Pool κ H} {task : H} (hpc : pc.source w = some source)
      (hf : FetchTrans p slot source p' (.success task)) :
      PoolTrans p ⟨slot, .find w pc⟩ (.attempt ch) (p'.recordReturned w.core task) ⟨slot, .idle⟩
  | findNext {slot : Slot} {w : Registration κ} {pc pc' : FindPc WorkerEntry} {source : Source κ}
      {ch : Choice} {p' : Pool κ H} {r : Steal H} (hpc : pc.source w = some source)
      (hf : FetchTrans p slot source p' r) (hr : ∀ task, r ≠ .success task)
      (hpc' : pc' = pc.onEmpty ∨ pc' = pc.onRetry) :
      PoolTrans p ⟨slot, .find w pc⟩ (.attempt ch) p' ⟨slot, .find w pc'⟩
  | findStart {slot : Slot} {w : Registration κ} {n : ℕ} :
      PoolTrans p ⟨slot, .find w .stealers⟩ (.start n) p
        ⟨slot, .find w (.peers ((p.core w.core).registry.stealersCache.rotate
          (n % (p.core w.core).registry.stealersCache.length)))⟩
  | findAlone {slot : Slot} {w : Registration κ} {n : ℕ} :
      PoolTrans p ⟨slot, .find w .stealers⟩ (.start n) p ⟨slot, .idle⟩
  | findSkip {slot : Slot} {w : Registration κ} {peer : WorkerEntry} {rest : List WorkerEntry} :
      PoolTrans p ⟨slot, .find w (.peers (peer :: rest))⟩ .go p ⟨slot, .find w (.peers rest)⟩
  | findEnd {slot : Slot} {w : Registration κ} :
      PoolTrans p ⟨slot, .find w (.peers [])⟩ .go p ⟨slot, .idle⟩

omit [DecidableEq κ] in
/-- What `find_task` tries: the injector, the local deque or the deque of the next peer. -/
theorem FindPc.source_cases {w : Registration κ} {pc : FindPc WorkerEntry} {source : Source κ}
    (h : pc.source w = some source) :
    ((pc = .injectorFirst ∨ pc = .injector ∨ pc = .injectorAgain) ∧ source = .injector w.core) ∨
      (pc = .localDeque ∧ source = .local) ∨
      ∃ peer rest, (pc = .peers (peer :: rest) ∨ pc = .peerAgain peer rest) ∧
        source = .stealer peer.stealer := by
  unfold FindPc.source at h
  split at h
  · cases h; exact .inl ⟨.inl rfl, rfl⟩
  · cases h; exact .inl ⟨.inr (.inl rfl), rfl⟩
  · cases h; exact .inl ⟨.inr (.inr rfl), rfl⟩
  · cases h; exact .inr (.inl ⟨rfl, rfl⟩)
  · next peer rest =>
    split at h
    · cases h
    · cases h; exact .inr (.inr ⟨peer, rest, .inl rfl, rfl⟩)
  · next peer rest => cases h; exact .inr (.inr ⟨peer, rest, .inr rfl, rfl⟩)
  · cases h
  · cases h

section
variable {p p' : Pool κ H} {slot : Slot} {a : PoolLabel κ H} {pc' : PoolPc κ H}

/-- The operations that an idle thread begins. -/
theorem beginStep_trans (h : beginStep p slot a = some (p', pc')) :
    PoolTrans p ⟨slot, .idle⟩ a p' ⟨slot, pc'⟩ := by
  cases a with
  | inject k task => cases h; exact .inject
  | handOff k task =>
    cases slot with
    | none => cases h; exact .handOff
    | some owned => cases h; exact .handOffLocal
  | tryPushLocal task =>
    cases slot with
    | none => cases h; exact .tryPushBack
    | some owned => cases h; exact .tryPushLocal
  | fetch k source ch =>
    simp only [beginStep] at h
    cases hf : p.fetch slot ch source with
    | mk q r =>
      have ht := fetch_trans hf
      rw [hf] at h
      cases r with
      | success task => cases h; exact .fetch ht
      | empty | retry => cases h; exact .fetchNone ht nofun
  | findTask w =>
    simp only [beginStep] at h
    split at h
    · next hw =>
      cases h
      refine .findTask hw ?_
      split
      · exact .inl rfl
      · exact .inr rfl
    · cases h
  | newWorker k => cases h; exact .newWorker
  | dropGuard g =>
    simp only [beginStep] at h
    split at h
    · next hg => cases h; exact .dropGuard hg
    · cases h
  | shutdown k => cases h; exact .shutdown
  | go | attempt | start => cases h

/-- The steps of `find_task`. -/
theorem findTaskStep_trans {w : Registration κ} {pc : FindPc WorkerEntry}
    (h : findTaskStep p slot w pc a = some (p', pc')) :
    PoolTrans p ⟨slot, .find w pc⟩ a p' ⟨slot, pc'⟩ := by
  cases a with
  | attempt ch =>
    obtain ⟨source, hsource, h⟩ := Option.map_eq_some_iff.1 h
    cases hf : p.fetch slot ch source with
    | mk q r =>
      have ht := fetch_trans hf
      rw [hf] at h
      cases r with
      | success task => cases h; exact .findGot hsource ht
      | empty => cases h; exact .findNext hsource ht nofun (.inl rfl)
      | retry => cases h; exact .findNext hsource ht nofun (.inr rfl)
  | start n =>
    cases pc with
    | stealers =>
      simp only [findTaskStep] at h
      split at h
      · cases h; exact .findStart
      · cases h; exact .findAlone
    | _ => cases h
  | go =>
    cases pc with
    | peers peers =>
      cases peers with
      | nil => cases h; exact .findEnd
      | cons peer rest =>
        simp only [findTaskStep] at h
        split at h
        · cases h; exact .findSkip
        · cases h
    | _ => cases h
  | _ => cases h

/-- Every step of a thread is one of the steps of the pool. -/
theorem poolStep_trans {t t' : PoolThread κ H} (h : poolStep p t a = some (p', t')) :
    PoolTrans p t a p' t' := by
  obtain ⟨slot, pc⟩ := t
  unfold poolStep at h
  split at h
  · next hpc =>
    obtain ⟨⟨q, pc'⟩, hb, he⟩ := Option.map_eq_some_iff.1 h
    cases he
    cases hpc
    exact beginStep_trans hb
  · next hpc =>
    obtain ⟨⟨q, pc'⟩, hb, he⟩ := Option.map_eq_some_iff.1 h
    cases he
    cases hpc
    exact findTaskStep_trans hb
  · next hpc =>
    cases hpc
    cases slot with
    | none => cases h; exact .injectBack
    | some owned => cases h; exact .injectLocal
  · next hpc => cases hpc; cases h; exact .push
  · next hpc =>
    cases hpc
    cases slot with
    | none => cases h; exact .takeNone
    | some owned => cases h; exact .takeAny
  · next loop hpc =>
    cases hpc
    cases hd : p.deque loop.deque with
    | nil =>
      rw [Pool.pop_nil hd] at h
      cases h
      exact .drainEnd hd
    | cons task rest =>
      rw [Pool.pop_cons hd] at h
      cases h
      exact .drain hd
  · next hpc => cases hpc; cases h; exact .install
  · next hpc => cases hpc; cases h; exact .register
  · next g hpc =>
    cases hpc
    cases slot with
    | none => cases h; exact .takeLocalNone nofun
    | some owned =>
      obtain ⟨owner, d⟩ := owned
      simp only [takeLocalWorker] at h
      by_cases howner : owner = g.id
      · rw [if_pos howner] at h
        cases h
        exact howner ▸ .takeLocal
      · rw [if_neg howner] at h
        cases h
        exact .takeLocalNone (by simpa using howner)
  · cases h

end

section
variable {ι : Type} [DecidableEq ι] {c : PoolConfig κ H ι}
  {G : PoolConfig κ H ι → ι × PoolLabel κ H → Prop}

/-- The invariant rule of the pool: `J` is already known of every state of the run, `I` holds at the
start and every step of a thread that meets the guard keeps it. -/
theorem pool_invariant {I J : PoolConfig κ H ι → Prop} (h : (poolMachine κ H ι).Reachable G c)
    (hJ : ∀ c, (poolMachine κ H ι).Reachable G c → J c) (h₀ : I ⟨.new, fun _ => ⟨none, .idle⟩⟩)
    (hstep : ∀ c : PoolConfig κ H ι, ∀ i a p' t t', J c → I c → G c (i, a) → c.loc i = t →
      PoolTrans c.shared t a p' t' → I ⟨p', Function.update c.loc i t'⟩) : I c :=
  Machine.Threads.invariant h hJ h₀ fun c i a p' t t' hJc hI hG ht hp =>
    hstep c i a p' t t' hJc hI hG ht (poolStep_trans hp)

/-- The owner and interference rule of the pool: an idle thread without a deque has `L` at the
start, a step keeps the `L` of its own thread, and no step breaks the `L` of another. -/
theorem pool_local {J : PoolConfig κ H ι → Prop} {L : ι → Pool κ H → PoolThread κ H → Prop}
    (h : (poolMachine κ H ι).Reachable G c) (hJ : ∀ c, (poolMachine κ H ι).Reachable G c → J c)
    (h₀ : ∀ j, L j .new ⟨none, .idle⟩)
    (own : ∀ c : PoolConfig κ H ι, ∀ i a p' t t', J c → G c (i, a) → c.loc i = t → L i c.shared t →
      PoolTrans c.shared t a p' t' → L i p' t')
    (other : ∀ c : PoolConfig κ H ι, ∀ i a p' t t' j, J c → G c (i, a) → c.loc i = t → j ≠ i →
      PoolTrans c.shared t a p' t' → L j c.shared (c.loc j) → L j p' (c.loc j)) (j : ι) :
    L j c.shared (c.loc j) :=
  Machine.Threads.invariant_local h hJ h₀
    (fun c i a p' t t' hJc hG ht hL hp => own c i a p' t t' hJc hG ht hL (poolStep_trans hp))
    (fun c i a p' t t' j hJc hG ht hj hp hL =>
      other c i a p' t t' j hJc hG ht hj (poolStep_trans hp) hL) j

end

end Hypertile
