import Hypertile.Pool.Affinity
import Hypertile.Pool.Guards

/-!
# `run_until_idle` empties the pool

A worker that is registered is used on the thread that registered it, and no other thread acts
(`alone`): then `find_task` returns no task only where no queue in reach of the worker has one, for
every victim that it starts at, every tick and every batch that a steal moves, and `run_until_idle`
returns, after it has run each task that was queued or spawned once (`run_until_idle_empties`).

A call of `find_task` looks at the queues one after the other, so what carries the first result is
which of them are known to be empty at each of its places (`FindPc.Scanned`). The worker does not
look at the deque of its own entry in the registry. That is the local deque, or it was drained when
another one was installed in the slot, and nothing is pushed to it since (`Ready.own`).

The second result is by the account of the tasks in reach (`Pool.storedIn`): a step of the thread
moves them, adds the one that is spawned, or takes the one that is run. Each step that does neither
brings the call closer to its end (`WorkerPc.rank`), so there are no more steps than the tasks
allow for.
-/

namespace Hypertile

open Machine Machine.Threads

variable {κ H : Type} [DecidableEq κ]

/-! ## What is in a queue -/

/-- The tasks in the queue that an attempt looks at. -/
def Pool.contents (p : Pool κ H) (slot : Slot) : Source κ → List H
  | .injector k => (p.core k).injector
  | .local => slot.elim [] fun owned => p.deque owned.2
  | .stealer d => p.deque d

omit [DecidableEq κ] in
/-- `Worker::pop` takes a task if there is one. -/
theorem Pool.pop_empty_iff {p p' : Pool κ H} {d : DequeId} {r : Steal H} (h : p.pop d = (p', r)) :
    p.deque d = [] ∧ p' = p ∧ r = .empty ∨ ∃ task, r = .success task := by
  cases hd : p.deque d with
  | nil =>
    rw [pop_nil hd] at h
    cases h
    exact .inl ⟨rfl, rfl, rfl⟩
  | cons task rest =>
    rw [pop_cons hd] at h
    cases h
    exact .inr ⟨task, rfl⟩

/-- An attempt that is not retried gives a task, or finds the queue empty and changes nothing. -/
theorem fetch_batch {p p' : Pool κ H} {slot : Slot} {n : ℕ} {source : Source κ} {r : Steal H}
    (h : p.fetch slot (.batch n) source = (p', r)) :
    p.contents slot source = [] ∧ p' = p ∧ r = .empty ∨ ∃ task, r = .success task := by
  cases source with
  | injector k =>
    simp only [Pool.fetch, Pool.stealInjectorIntoLocal] at h
    split at h
    · next hk =>
      cases h
      exact .inl ⟨hk, rfl, rfl⟩
    · cases h
      exact .inr ⟨_, rfl⟩
  | «local» =>
    cases slot with
    | none =>
      cases h
      exact .inl ⟨rfl, rfl, rfl⟩
    | some owned => exact Pool.pop_empty_iff h
  | stealer d =>
    simp only [Pool.fetch, Pool.stealIntoLocal] at h
    split at h
    · exact Pool.pop_empty_iff h
    · split at h
      · next hd =>
        cases h
        exact .inl ⟨hd, rfl, rfl⟩
      · cases h
        exact .inr ⟨_, rfl⟩

/-! ## Where a deque stays -/

/-- A deque that was dropped stays so. -/
theorem PoolTrans.retired_le {p p' : Pool κ H} {t t' : PoolThread κ H} {a : PoolLabel κ H}
    (h : PoolTrans p t a p' t') : p.retired ≤ p'.retired := by
  cases h with
  | drainEnd => exact Multiset.le_cons_self ..
  | fetch hf | fetchNone hf | findGot _ hf | findNext _ hf => exact hf.sameWorkers.retired.ge
  | _ => exact le_rfl

/-- A thread keeps a deque that it holds until the deque is dropped. -/
theorem PoolTrans.held_or_retired {p p' : Pool κ H} {t t' : PoolThread κ H} {a : PoolLabel κ H}
    (h : PoolTrans p t a p' t') (ht : t.SlotEmptied) {d : DequeId} (hd : d ∈ t.held) :
    d ∈ t'.held ∨ d ∈ p'.retired := by
  have hmade := (Multiset.range_le.2 h.nextDeque_le)
  have hcount := congrArg (Multiset.count d) (h.deques ht)
  simp only [Multiset.count_add] at hcount
  have hrange := Multiset.count_le_of_le d hmade
  have hheld := Multiset.count_pos.2 hd
  rw [← Multiset.count_pos, ← Multiset.count_pos]
  omega

section
variable {ι : Type} [DecidableEq ι] {c c' : PoolConfig κ H ι}
  {G : PoolConfig κ H ι → ι × PoolLabel κ H → Prop}

/-- A deque that a thread has held is with this thread, or was dropped. -/
theorem held_or_retired (hc : (poolMachine κ H ι).Reachable anyStep c)
    (h : (poolMachine κ H ι).Reach anyStep c c') {i : ι} {d : DequeId} (hd : d ∈ (c.loc i).held) :
    d ∈ (c'.loc i).held ∨ d ∈ c'.shared.retired := by
  refine h.invariant_of (I := fun c => d ∈ (c.loc i).held ∨ d ∈ c.shared.retired)
    (J := (poolMachine κ H ι).Reachable anyStep) (fun _ h' => hc.trans h') (.inl hd) ?_
  rintro c ⟨j, a⟩ c' hr hI - hst
  obtain ⟨p', t', hp, rfl⟩ := step_iff.1 hst
  have htrans := poolStep_trans hp
  rcases hI with hheld | hret
  · by_cases hij : i = j
    · subst hij
      simpa using htrans.held_or_retired (reachable_slotEmptied hr i) hheld
    · left
      simpa [Function.update_of_ne hij] using hheld
  · exact .inr (Multiset.mem_of_le htrans.retired_le hret)

/-- The deque that a thread has had in its slot is there, or empty, between two operations of this
thread. -/
theorem inSlot_or_empty [Fintype ι] (hc : (poolMachine κ H ι).Reachable anyStep c)
    (h : (poolMachine κ H ι).Reach anyStep c c') {i : ι} {d : DequeId}
    (hd : (c.loc i).slot.map Prod.snd = some d) (hidle : (c'.loc i).pc = .idle) :
    (c'.loc i).slot.map Prod.snd = some d ∨ c'.shared.deque d = [] := by
  have hheld : d ∈ (c.loc i).held := by
    obtain ⟨owned, howned, rfl⟩ := Option.map_eq_some_iff.1 hd
    simp [PoolThread.held, howned, Slot.held]
  rcases held_or_retired hc h hheld with hheld' | hret
  · left
    have hmem : d ∈ (c'.loc i).slot.held := by
      simpa [PoolThread.held, hidle, PoolPc.held] using hheld'
    cases hslot : (c'.loc i).slot with
    | none => simp [hslot, Slot.held] at hmem
    | some owned => simpa [hslot, Slot.held, eq_comm] using hmem
  · right
    by_contra hne
    exact (reachable_dequesLive (hc.trans h) d hne).2 hret

end

namespace Affinity

section
variable {p p' : Pool Unit H} {slot : Slot} {w : Registration Unit}

/-! ## The queues in reach -/

/-- The deques in reach of a worker on a thread with this slot: the local one, and those that are
registered. -/
def inReach (p : Pool Unit H) (slot : Slot) : Finset DequeId :=
  (slot.toList.map Prod.snd ++ (p.core ()).registry.workers.map (·.stealer)).toFinset

/-- The tasks in the injector and in the deques in reach. -/
def queued (p : Pool Unit H) (slot : Slot) : Multiset H := p.storedIn (inReach p slot)

/-- The injector, the local deque and the deques of all registered workers are empty. -/
structure AllEmpty (p : Pool Unit H) (slot : Slot) : Prop where
  injector : (p.core ()).injector = []
  localDeque : ∀ owned ∈ slot, p.deque owned.2 = []
  registered : ∀ e ∈ (p.core ()).registry.workers, p.deque e.stealer = []

/-- Then no task is queued in reach. -/
theorem AllEmpty.queued_eq (h : AllEmpty p slot) : queued p slot = 0 := by
  have hinjectors : p.injectors = 0 := by
    simp [Pool.injectors, h.injector]
  rw [queued, Pool.storedIn, hinjectors, zero_add]
  refine Finset.sum_eq_zero fun d hd => ?_
  rw [inReach, List.mem_toFinset, List.mem_append] at hd
  rcases hd with hd | hd
  · obtain ⟨owned, howned, rfl⟩ := List.mem_map.1 hd
    rw [h.localDeque owned (Option.mem_toList.1 howned)]
    rfl
  · obtain ⟨e, he, rfl⟩ := List.mem_map.1 hd
    rw [h.registered e he]
    rfl

/-- What a worker finds on the thread that registered it: it is registered, the list of stealers is
that of the registry, and the deque of its own entry is the local one or empty. -/
structure Ready (p : Pool Unit H) (slot : Slot) (w : Registration Unit) : Prop where
  cache : (p.core ()).registry.stealersCache = (p.core ()).registry.workers
  listed : ∃ e ∈ (p.core ()).registry.workers, e.id = w.id
  own : ∀ e ∈ (p.core ()).registry.workers, e.id = w.id → slot.map Prod.snd ≠ some e.stealer →
    p.deque e.stealer = []

/-! ## One call of `find_task` -/

/-- The local deque and the injector are empty, and so are the deques of all other workers, but for
these, which are registered. -/
structure LeftToScan (p : Pool Unit H) (slot : Slot) (w : Registration Unit)
    (left : List WorkerEntry) : Prop where
  localDeque : ∀ owned ∈ slot, p.deque owned.2 = []
  injector : (p.core ()).injector = []
  registered : ∀ e ∈ left, e ∈ (p.core ()).registry.workers
  scanned : ∀ e ∈ (p.core ()).registry.workers, e ∈ left ∨ e.id = w.id ∨ p.deque e.stealer = []

/-- Where only entries of the worker itself are left, all queues are empty. -/
theorem LeftToScan.allEmpty {left : List WorkerEntry} (h : LeftToScan p slot w left)
    (hready : Ready p slot w) (hself : ∀ e ∈ left, e.id = w.id) : AllEmpty p slot := by
  refine ⟨h.injector, h.localDeque, fun e he => ?_⟩
  have hown : e.id = w.id → p.deque e.stealer = [] := by
    intro hid
    by_cases hslot : slot.map Prod.snd = some e.stealer
    · obtain ⟨owned, howned, hd⟩ := Option.map_eq_some_iff.1 hslot
      rw [← hd]
      exact h.localDeque owned howned
    · exact hready.own e he hid hslot
  rcases h.scanned e he with hleft | hid | hnil
  · exact hown (hself e hleft)
  · exact hown hid
  · exact hnil

/-- An entry is done with: it is the worker's own, or its deque is empty. -/
theorem LeftToScan.tail {peer : WorkerEntry} {rest : List WorkerEntry}
    (h : LeftToScan p slot w (peer :: rest)) (hpeer : peer.id = w.id ∨ p.deque peer.stealer = []) :
    LeftToScan p slot w rest := by
  refine ⟨h.localDeque, h.injector, fun e he => h.registered e (List.mem_cons_of_mem _ he), ?_⟩
  intro e he
  rcases h.scanned e he with hleft | hdone
  · rcases List.mem_cons.1 hleft with rfl | hrest
    · exact .inr hpeer
    · exact .inl hrest
  · exact .inr hdone

/-- The entries are visited in another order. -/
theorem LeftToScan.of_mem_iff {left left' : List WorkerEntry} (h : LeftToScan p slot w left)
    (hmem : ∀ e, e ∈ left' ↔ e ∈ left) : LeftToScan p slot w left' := by
  refine ⟨h.localDeque, h.injector, fun e he => h.registered e ((hmem e).1 he), fun e he => ?_⟩
  rw [hmem]
  exact h.scanned e he

end

end Affinity

/-- What a call of `find_task` knows at its place: which queues it has found empty. -/
def FindPc.Scanned (p : Pool Unit H) (slot : Slot) (w : Registration Unit) :
    FindPc WorkerEntry → Prop
  | .injectorFirst | .localDeque => True
  | .injector | .injectorAgain => ∀ owned ∈ slot, p.deque owned.2 = []
  | .stealers => Affinity.LeftToScan p slot w (p.core ()).registry.workers
  | .peers rest => Affinity.LeftToScan p slot w rest
  | .peerAgain peer rest => Affinity.LeftToScan p slot w (peer :: rest)

/-- A bound for the steps that a call of `find_task` can still take, with `n` stealers. -/
def FindPc.rank (n : ℕ) : FindPc WorkerEntry → ℕ
  | .injectorFirst => n + 6
  | .localDeque => n + 5
  | .injector => n + 4
  | .injectorAgain => n + 3
  | .stealers => n + 2
  | .peerAgain _ rest => rest.length + 2
  | .peers rest => rest.length + 1

namespace Affinity

section
variable {p : Pool Unit H} {slot : Slot} {w : Registration Unit} {fpc : FindPc WorkerEntry}
  {source : Source Unit}

/-- An attempt that finds the queue empty adds it to those that are known to be. -/
theorem scanned_onEmpty (h : fpc.Scanned p slot w) (hsource : fpc.source w = some source)
    (hnil : p.contents slot source = []) : fpc.onEmpty.Scanned p slot w := by
  rcases FindPc.source_cases hsource with
    ⟨rfl | rfl | rfl, rfl⟩ | ⟨rfl, rfl⟩ | ⟨peer, rest, rfl | rfl, rfl⟩
  · exact trivial
  · exact ⟨h, hnil, fun e he => he, fun e he => .inl he⟩
  · exact ⟨h, hnil, fun e he => he, fun e he => .inl he⟩
  · rintro owned ⟨⟩
    exact hnil
  · exact LeftToScan.tail h (.inr hnil)
  · exact LeftToScan.tail h (.inr hnil)

/-- Such an attempt brings the call closer to its end. -/
theorem rank_onEmpty (n : ℕ) (hsource : fpc.source w = some source) :
    fpc.onEmpty.rank n < fpc.rank n := by
  rcases FindPc.source_cases hsource with
    ⟨rfl | rfl | rfl, -⟩ | ⟨rfl, -⟩ | ⟨peer, rest, rfl | rfl, -⟩ <;>
    simp [FindPc.onEmpty, FindPc.rank]

/-- What is looked at is in reach. -/
theorem mem_inReach_of_source (h : fpc.Scanned p slot w) {d : DequeId}
    (hsource : fpc.source w = some (.stealer d)) : d ∈ inReach p slot := by
  have hmem : ∀ e ∈ (p.core ()).registry.workers, e.stealer ∈ inReach p slot := by
    intro e he
    simp only [inReach, List.mem_toFinset, List.mem_append, List.mem_map]
    exact .inr ⟨e, he, rfl⟩
  rcases FindPc.source_cases hsource with ⟨-, he⟩ | ⟨-, he⟩ | ⟨peer, rest, rfl | rfl, he⟩
  · cases he
  · cases he
  · cases he
    exact hmem peer (h.registered peer List.mem_cons_self)
  · cases he
    exact hmem peer (h.registered peer List.mem_cons_self)

end

/-- What a step of `find_task` can do, if no attempt has to be retried: it finds a task, it goes on
with one more queue known to be empty, or it returns without a task where all queues are empty. -/
inductive FindTrans (taskKind : H → TaskKind) (s : KindedPool H) (slot : Slot)
    (w : Registration Unit) (kind : WorkerKind) (m : Method) (fpc : FindPc WorkerEntry) :
    KindedPool H → WorkerPc H → Prop
  | found {source : Source Unit} {p' : Pool Unit H} {task : H}
      (hf : FetchTrans s.pool slot source p' (.success task))
      (hsource : ∀ d, source = .stealer d → d ∈ inReach s.pool slot) :
      FindTrans taskKind s slot w kind m fpc { s with pool := p'.recordReturned () task }
        (m.found kind task (taskKind task))
  | next {fpc' : FindPc WorkerEntry} (hs : fpc'.Scanned s.pool slot w)
      (hrank : fpc'.rank (s.pool.core ()).registry.stealersCache.length <
        fpc.rank (s.pool.core ()).registry.stealersCache.length) :
      FindTrans taskKind s slot w kind m fpc s (.find m fpc')
  | none (hempty : AllEmpty s.pool slot) : FindTrans taskKind s slot w kind m fpc s m.notFound

/-- Every step of `find_task` that is not an attempt to be retried is one of these. -/
theorem findStep_cases {taskKind : H → TaskKind} {s s' : KindedPool H} {slot : Slot}
    {w : Registration Unit} {kind : WorkerKind} {m : Method} {fpc : FindPc WorkerEntry}
    {a : WorkerAct H} {pc' : WorkerPc H} (hready : Ready s.pool slot w)
    (hs : fpc.Scanned s.pool slot w) (ha : a ≠ .attempt .retry)
    (h : findStep taskKind s slot w kind m fpc a = some (s', pc')) :
    FindTrans taskKind s slot w kind m fpc s' pc' := by
  cases a with
  | attempt ch =>
    obtain ⟨source, hsource, h⟩ := Option.map_eq_some_iff.1 h
    obtain ⟨n, rfl⟩ : ∃ n, ch = .batch n := by
      cases ch with
      | retry => exact absurd rfl ha
      | batch n => exact ⟨n, rfl⟩
    cases hf : s.pool.fetch slot (.batch n) source with
    | mk p' r =>
      simp only [KindedPool.fetch, hf] at h
      rcases fetch_batch hf with ⟨hnil, rfl, rfl⟩ | ⟨task, rfl⟩
      · cases h
        exact .next (scanned_onEmpty hs hsource hnil) (rank_onEmpty _ hsource)
      · cases h
        refine .found (fetch_trans hf) fun d hd => ?_
        rw [hd] at hsource
        exact mem_inReach_of_source hs hsource
  | victim peer =>
    cases fpc with
    | stealers =>
      simp only [findStep, Option.some.injEq, Prod.mk.injEq] at h
      obtain ⟨rfl, rfl⟩ := h
      split
      · refine .next ?_ ?_
        · refine LeftToScan.of_mem_iff hs fun e => ?_
          rw [List.mem_rotate, hready.cache]
        · simp [FindPc.rank]
      · next hlen =>
        -- the registry has one entry at most, the worker's own
        refine .none (LeftToScan.allEmpty hs hready fun e he => ?_)
        obtain ⟨own, hmem, hid⟩ := hready.listed
        rw [hready.cache] at hlen
        obtain ⟨e₀, hle⟩ : ∃ e₀, (s.pool.core ()).registry.workers ⊆ [e₀] := by
          cases hw : (s.pool.core ()).registry.workers with
          | nil => exact ⟨own, List.nil_subset _⟩
          | cons e₀ rest =>
            have hnil : rest = [] := by simpa [hw] using hlen
            exact ⟨e₀, by rw [hnil]; exact List.Subset.refl _⟩
        have hsame : e = own :=
          (List.mem_singleton.1 (hle he)).trans (List.mem_singleton.1 (hle hmem)).symm
        rw [hsame, hid]
    | _ => cases h
  | go =>
    cases fpc with
    | peers left =>
      cases left with
      | nil =>
        cases h
        exact .none (LeftToScan.allEmpty hs hready (by simp))
      | cons peer rest =>
        simp only [findStep] at h
        split at h
        · next hid =>
          cases h
          exact .next (LeftToScan.tail hs (.inl hid)) (by simp [FindPc.rank])
        · cases h
    | _ => cases h
  | _ => cases h

/-! ## The steps of a thread that acts alone -/

/-- What the thread does, apart from returning: no attempt has to be retried, and the code of a task
that is run only spawns. -/
def WorkerAct.solo : WorkerAct H → Bool
  | .go | .attempt (.batch _) | .victim _ | .inject _ | .handOff _ | .done => true
  | _ => false

/-- Thread `i` acts alone, in its innermost call, which has not returned. -/
def alone {ι : Type} (i : ι) (c : WorkerConfig H ι) (a : ι × WorkerAct H) : Prop :=
  a.1 = i ∧ a.2.solo = true ∧ ∀ call ∈ (c.loc i).calls.head?, call.pc ≠ .leave

/-- Between two operations of the pool, or in the middle of a spawn. -/
def spawning : PoolPc Unit H → Bool
  | .idle | .inject _ _ none | .push _ _ none => true
  | _ => false

/-- What a step can do to a thread that acts alone: what it has under way in the pool, and where its
innermost call stands. -/
inductive SoloTrans (taskKind : H → TaskKind) (s : KindedPool H) (slot : Slot)
    (w : Registration Unit) (kind : WorkerKind) :
    PoolPc Unit H → WorkerPc H → KindedPool H → PoolPc Unit H → WorkerPc H → Prop
  | spawnLocal {id : WorkerId} {d : DequeId} {task task' : H} {resume : WorkerPc H}
      (hslot : slot = some (id, d)) :
      SoloTrans taskKind s slot w kind .idle (.run task resume)
        { s with pool := (s.pool.recordInjected task').push d task' } .idle (.run task resume)
  | spawn {task task' : H} {resume : WorkerPc H} :
      SoloTrans taskKind s slot w kind .idle (.run task resume)
        { s with pool := s.pool.recordInjected task' } (.inject () task' none) (.run task resume)
  | pushLocal {id : WorkerId} {d : DequeId} {task' : H} {pc : WorkerPc H}
      (hslot : slot = some (id, d)) :
      SoloTrans taskKind s slot w kind (.inject () task' none) pc
        { s with pool := s.pool.push d task' } .idle pc
  | pushBack {task' : H} {pc : WorkerPc H} :
      SoloTrans taskKind s slot w kind (.inject () task' none) pc s (.push () task' none) pc
  | push {task' : H} {pc : WorkerPc H} :
      SoloTrans taskKind s slot w kind (.push () task' none) pc
        { s with pool := s.pool.pushInjector () task' } .idle pc
  | done {task : H} {resume : WorkerPc H} :
      SoloTrans taskKind s slot w kind .idle (.run task resume) s .idle resume
  | call {a : WorkerAct H} {s' : KindedPool H} {pc pc' : WorkerPc H} (ha : a ≠ .attempt .retry)
      (h : callStep taskKind s slot w kind pc a = some (s', pc')) :
      SoloTrans taskKind s slot w kind .idle pc s' .idle pc'

section
variable {taskKind : H → TaskKind} {s s' : KindedPool H} {slot : Slot} {w : Registration Unit}
  {kind : WorkerKind} {rest : List (Call H)} {u u' : PoolPc Unit H} {pc pc' : WorkerPc H}
  {a : WorkerAct H} {l' : WorkerThread H}

/-- What a task that is run does is to spawn. -/
theorem userStep_solo {task : H} {resume : WorkerPc H} {calls : List (Call H)} (ha : a.solo = true)
    (h : userStep s ⟨⟨slot, .idle⟩, calls⟩ a = some (s', l')) :
    ∃ u', l' = ⟨⟨slot, u'⟩, calls⟩ ∧
      SoloTrans taskKind s slot w kind .idle (.run task resume) s' u' (.run task resume) := by
  cases a with
  | inject task' =>
    cases h
    exact ⟨_, rfl, .spawn⟩
  | handOff task' =>
    cases slot with
    | none =>
      cases h
      exact ⟨_, rfl, .spawn⟩
    | some owned =>
      cases h
      exact ⟨_, rfl, .spawnLocal rfl⟩
  | go | attempt | victim | done => cases h
  | _ => cases ha

/-- Every step of a thread that acts alone is one of these. -/
theorem workerStep_solo (hu : spawning u = true) (hpc : pc ≠ .leave) (ha : a.solo = true)
    (h : workerStep taskKind s ⟨⟨slot, u⟩, ⟨w, kind, pc⟩ :: rest⟩ a = some (s', l')) :
    ∃ u' pc', l' = ⟨⟨slot, u'⟩, ⟨w, kind, pc'⟩ :: rest⟩ ∧
      SoloTrans taskKind s slot w kind u pc s' u' pc' := by
  have hretry : a ≠ .attempt .retry := by
    rintro rfl
    cases ha
  cases u with
  | idle =>
    simp only [workerStep, programStep] at h
    split at h
    · next task resume =>
      split at h
      · cases h
        exact ⟨_, _, rfl, .done⟩
      · obtain ⟨u', rfl, htrans⟩ := userStep_solo ha h
        exact ⟨u', _, rfl, htrans⟩
    · exact absurd rfl hpc
    · obtain ⟨⟨q, pc'⟩, hstep, he⟩ := Option.map_eq_some_iff.1 h
      cases he
      exact ⟨_, _, rfl, .call hretry hstep⟩
  | inject k task' loop =>
    cases loop with
    | some loop => cases hu
    | none =>
      cases a with
      | go =>
        cases slot with
        | none =>
          cases h
          exact ⟨_, _, rfl, .pushBack⟩
        | some owned =>
          cases h
          exact ⟨_, _, rfl, .pushLocal rfl⟩
      | _ => cases h
  | push k task' loop =>
    cases loop with
    | some loop => cases hu
    | none =>
      cases a with
      | go =>
        cases h
        exact ⟨_, _, rfl, .push⟩
      | _ => cases h
  | _ => cases hu

end

/-! ## What every step keeps -/

/-- The registry is as it was, and no deque but the local one has more tasks. -/
structure LocalGrowth (p : Pool Unit H) (slot : Slot) (p' : Pool Unit H) : Prop where
  registry : (p'.core ()).registry = (p.core ()).registry
  length : ∀ d, d ∉ slot.held → (p'.deque d).length ≤ (p.deque d).length

namespace LocalGrowth

variable {p p' : Pool Unit H} {slot : Slot}

/-- Nothing is done. -/
theorem refl (p : Pool Unit H) (slot : Slot) : LocalGrowth p slot p := ⟨rfl, fun _ _ => le_rfl⟩

/-- An attempt to get a task. -/
theorem of_fetch {source : Source Unit} {r : Steal H} (h : FetchTrans p slot source p' r) :
    LocalGrowth p slot p' :=
  ⟨h.sameWorkers.registry (), fun _ hd => h.length_le hd⟩

/-- A push to the local deque. -/
theorem push {id : WorkerId} {d : DequeId} (hslot : slot = some (id, d)) (task : H) :
    LocalGrowth p slot (p.push d task) := by
  subst hslot
  refine ⟨rfl, fun d' hd' => ?_⟩
  rw [Pool.push, Pool.setDeque_of_ne fun heq => hd' (by simp [Slot.held, heq])]

/-- A push to the injector. -/
theorem pushInjector (task : H) : LocalGrowth p slot (p.pushInjector () task) :=
  ⟨(SameWorkers.setInjector ..).registry (), fun _ _ => le_rfl⟩

end LocalGrowth

/-- A worker stays ready. -/
theorem Ready.step {p p' : Pool Unit H} {slot : Slot} {w : Registration Unit}
    (h : Ready p slot w) (hg : LocalGrowth p slot p') : Ready p' slot w := by
  obtain ⟨hcache, hlisted, hown⟩ := h
  rw [← hg.registry] at hcache hlisted hown
  refine ⟨hcache, hlisted, fun e he hid hslot => ?_⟩
  have hle := hg.length e.stealer fun hmem => hslot ?_
  · rw [hown e he hid hslot] at hle
    exact List.eq_nil_of_length_eq_zero (Nat.le_zero.1 hle)
  · cases slot with
    | none => exact absurd hmem (Multiset.notMem_zero _)
    | some owned => rw [Multiset.mem_singleton.1 hmem]; rfl

/-- A place of a call between two attempts to get a task. -/
def WorkerPc.between : WorkerPc H → Bool
  | .find _ _ | .run _ _ => false
  | _ => true

/-- What a call knows at its place: in `find_task` which queues are empty, and in `run` of a task
that it goes on outside of both. -/
def WorkerPc.Sound (p : Pool Unit H) (slot : Slot) (w : Registration Unit) : WorkerPc H → Prop
  | .find _ fpc => fpc.Scanned p slot w
  | .run _ resume => resume.between = true
  | _ => True

/-- A thread that acts alone: its worker is ready, it is between two operations of the pool or its
task is spawning, and its call knows what it must. -/
structure Sound (s : KindedPool H) (slot : Slot) (w : Registration Unit) (u : PoolPc Unit H)
    (pc : WorkerPc H) : Prop where
  ready : Ready s.pool slot w
  spawning : spawning u = true
  run : u ≠ .idle → ∃ task resume, pc = .run task resume
  pc : pc.Sound s.pool slot w

section
variable {taskKind : H → TaskKind} {s s' : KindedPool H} {slot : Slot} {w : Registration Unit}
  {kind : WorkerKind} {u u' : PoolPc Unit H} {pc pc' : WorkerPc H} {a : WorkerAct H}
  {p : Pool Unit H}

/-- Between two attempts there is nothing to know. -/
theorem WorkerPc.sound_of_between (h : pc.between = true) : pc.Sound p slot w := by
  cases pc with
  | find | run => cases h
  | _ => exact trivial

/-- Where a call goes on without a task it is between two attempts. -/
@[simp] theorem between_notFound (m : Method) : (m.notFound : WorkerPc H).between = true := by
  cases m <;> rfl

/-- Where a call goes on with a task, it runs it. -/
theorem sound_found (m : Method) (task : H) (k : TaskKind) :
    (m.found kind task k).Sound p slot w := by
  cases m <;> rfl

/-- An attempt between two calls of `find_task`. -/
theorem attempt_sound {source : Source Unit} {ch : Choice} {resume otherwise : WorkerPc H}
    (hresume : resume.between = true) (hother : otherwise.between = true)
    (h : s.attempt slot source ch resume otherwise = (s', pc')) :
    LocalGrowth s.pool slot s'.pool ∧ pc'.Sound s'.pool slot w := by
  cases hf : s.pool.fetch slot ch source with
  | mk p' r =>
    have hgrowth := LocalGrowth.of_fetch (fetch_trans hf)
    simp only [KindedPool.attempt, KindedPool.fetch, hf] at h
    cases r with
    | success task =>
      cases h
      exact ⟨⟨hgrowth.registry, hgrowth.length⟩, hresume⟩
    | empty | retry =>
      cases h
      exact ⟨hgrowth, WorkerPc.sound_of_between hother⟩

/-- A step of a call keeps what it knows. -/
theorem callStep_sound (hready : Ready s.pool slot w) (hs : pc.Sound s.pool slot w)
    (ha : a ≠ .attempt .retry) (h : callStep taskKind s slot w kind pc a = some (s', pc')) :
    LocalGrowth s.pool slot s'.pool ∧ pc'.Sound s'.pool slot w := by
  cases callStep_cases h with
  | begin =>
    refine ⟨.refl .., ?_⟩
    split
    · exact trivial
    · exact trivial
  | quit | drained => exact ⟨.refl .., trivial⟩
  | find h =>
    cases findStep_cases hready hs ha h with
    | found hf =>
      have hgrowth := LocalGrowth.of_fetch hf
      exact ⟨⟨hgrowth.registry, hgrowth.length⟩, sound_found ..⟩
    | next hs' => exact ⟨.refl .., hs'⟩
    | none => exact ⟨.refl .., WorkerPc.sound_of_between (between_notFound _)⟩
  | drain _ h | spinLocal h | doubleCheck h => exact attempt_sound rfl rfl h
  | spinInjector h =>
    refine attempt_sound rfl ?_ h
    split
    · rfl
    · rfl

/-- A step of a thread that acts alone keeps the registry, and adds tasks to no deque but the local
one. -/
theorem SoloTrans.localGrowth (h : SoloTrans taskKind s slot w kind u pc s' u' pc')
    (hs : Sound s slot w u pc) : LocalGrowth s.pool slot s'.pool := by
  cases h with
  | @spawnLocal _ _ _ task' _ hslot =>
    have hgrowth : LocalGrowth s.pool slot _ := .push hslot task'
    exact ⟨hgrowth.registry, hgrowth.length⟩
  | spawn | pushBack | done => exact ⟨rfl, fun _ _ => le_rfl⟩
  | pushLocal hslot => exact .push hslot _
  | push => exact .pushInjector _
  | call ha hstep => exact (callStep_sound hs.ready hs.pc ha hstep).1

/-- It keeps what the thread knows. -/
theorem SoloTrans.sound (h : SoloTrans taskKind s slot w kind u pc s' u' pc')
    (hs : Sound s slot w u pc) : Sound s' slot w u' pc' := by
  have hready := hs.ready.step (h.localGrowth hs)
  have hrun := hs.run
  have hpc := hs.pc
  cases h with
  | spawnLocal => exact ⟨hready, rfl, fun hne => absurd rfl hne, hpc⟩
  | spawn => exact ⟨hready, rfl, fun _ => ⟨_, _, rfl⟩, hpc⟩
  | pushLocal | push =>
    obtain ⟨task, resume, rfl⟩ := hrun nofun
    exact ⟨hready, rfl, fun hne => absurd rfl hne, hpc⟩
  | pushBack =>
    obtain ⟨task, resume, rfl⟩ := hrun nofun
    exact ⟨hready, rfl, fun _ => ⟨task, resume, rfl⟩, hpc⟩
  | done => exact ⟨hready, rfl, fun hne => absurd rfl hne, WorkerPc.sound_of_between hpc⟩
  | call ha hstep =>
    exact ⟨hready, rfl, fun hne => absurd rfl hne, (callStep_sound hs.ready hpc ha hstep).2⟩

end

/-! ## What the steps of `run_until_idle` do -/

/-- The places of a call of `run_until_idle`. -/
def WorkerPc.untilIdle : WorkerPc H → Bool
  | .begin .runUntilIdle | .find .runUntilIdle _ | .run _ (.begin .runUntilIdle) | .leave => true
  | _ => false

/-- A bound for the steps that the call can still take without another task, with `n` stealers. -/
def WorkerPc.rank (n : ℕ) : WorkerPc H → ℕ
  | .begin _ => n + 7
  | .find _ fpc => fpc.rank n
  | .run _ _ => n + 8
  | _ => 0

/-- The steps that a spawn under way still takes. -/
def spawnRank : PoolPc Unit H → ℕ
  | .inject _ _ _ => 2
  | .push _ _ _ => 1
  | _ => 0

/-- The steps that the tasks found and spawned so far allow for, with `n` stealers. -/
def work (n : ℕ) (p : Pool Unit H) : ℕ := (n + 8) * p.returned.card + 3 * p.injected.card

/-- The tasks in these deques, in the injector and in the hand of the thread, and those that were
returned. -/
def account (ds : Finset DequeId) (p : Pool Unit H) (u : PoolPc Unit H) : Multiset H :=
  p.storedIn ds + u.carried + p.returned.map Prod.snd

section
variable {taskKind : H → TaskKind} {s s' : KindedPool H} {slot : Slot} {w : Registration Unit}
  {kind : WorkerKind} {u u' : PoolPc Unit H} {pc pc' : WorkerPc H} {a : WorkerAct H}
  {ds : Finset DequeId} {n : ℕ}

/-- Another task that is spawned. -/
@[simp] theorem work_recordInjected (p : Pool Unit H) (task : H) :
    work n (p.recordInjected task) = work n p + 3 := by
  simp only [work, Pool.recordInjected, Multiset.card_cons]
  omega

/-- Another task that is found. -/
@[simp] theorem work_recordReturned (p : Pool Unit H) (task : H) :
    work n (p.recordReturned () task) = work n p + (n + 8) := by
  simp only [work, Pool.recordReturned, Multiset.card_cons, Nat.mul_succ]
  omega

@[simp] theorem work_push (p : Pool Unit H) (d : DequeId) (task : H) :
    work n (p.push d task) = work n p := rfl

@[simp] theorem work_pushInjector (p : Pool Unit H) (task : H) :
    work n (p.pushInjector () task) = work n p := rfl

/-- An attempt to get a task spawns and finds none by itself. -/
theorem work_of_fetch {p p' : Pool Unit H} {source : Source Unit} {r : Steal H}
    (h : FetchTrans p slot source p' r) : work n p' = work n p := by
  rw [work, work, h.sameWorkers.returned, h.sameWorkers.injected]

/-- The steps that the tasks allow for, bounded by those that were queued and spawned. -/
theorem length_le_of_work {p p' : Pool Unit H} {q spawned stored : Multiset H} {len : ℕ}
    (hspawned : p'.injected = p.injected + spawned)
    (haccount : stored + p'.returned.map Prod.snd = q + p.returned.map Prod.snd + spawned)
    (hlen : len + work n p ≤ n + 7 + work n p') : len ≤ (n + 11) * (q.card + spawned.card + 1) := by
  have hcard := congrArg Multiset.card haccount
  have hinjected := congrArg Multiset.card hspawned
  simp only [Multiset.card_add, Multiset.card_map] at hcard hinjected
  have hreturned : (n + 8) * p'.returned.card ≤
      (n + 8) * q.card + (n + 8) * p.returned.card + (n + 8) * spawned.card := by
    rw [← Nat.mul_add, ← Nat.mul_add]
    exact Nat.mul_le_mul_left _ (by omega)
  have hfactor : ∀ k, (n + 11) * k = (n + 8) * k + 3 * k := by
    intro k
    rw [← Nat.add_mul]
  simp only [work] at hlen
  rw [Nat.mul_add, Nat.mul_add, hfactor, hfactor]
  omega

/-- A call of `find_task` has a step left. -/
theorem rank_pos (fpc : FindPc WorkerEntry) : 0 < fpc.rank n := by
  cases fpc <;> exact Nat.succ_pos _

/-- A step of `run_until_idle` between two tasks. -/
theorem callStep_untilIdle (hs : Sound s slot w u pc) (hpc : pc.untilIdle = true)
    (ha : a ≠ .attempt .retry) (h : callStep taskKind s slot w kind pc a = some (s', pc')) :
    (pc = .begin .runUntilIdle ∧ s'.pool = s.pool ∧
      ∃ fpc, pc' = .find .runUntilIdle fpc ∧ ∀ n, fpc.rank n < n + 7) ∨
    ∃ fpc, pc = .find .runUntilIdle fpc ∧
      FindTrans taskKind s slot w kind .runUntilIdle fpc s' pc' := by
  cases callStep_cases h with
  | begin m =>
    cases m with
    | runUntilIdle =>
      refine .inl ⟨rfl, rfl, _, rfl, fun n => ?_⟩
      split
      · simp [FindPc.rank]
      · simp [FindPc.rank]
    | _ => cases hpc
  | @find m fpc _ _ _ h =>
    cases m with
    | runUntilIdle => exact .inr ⟨fpc, rfl, findStep_cases hs.ready hs.pc ha h⟩
    | _ => cases hpc
  | _ => cases hpc

/-- The call stays one of `run_until_idle`, and returns where all queues are empty. -/
theorem SoloTrans.untilIdle (h : SoloTrans taskKind s slot w kind u pc s' u' pc')
    (hs : Sound s slot w u pc) (hpc : pc.untilIdle = true) :
    pc'.untilIdle = true ∧ (pc' = .leave → u' = .idle ∧ AllEmpty s'.pool slot) := by
  have hrun := hs.run
  cases h with
  | spawnLocal | spawn => exact ⟨hpc, nofun⟩
  | pushLocal | pushBack | push =>
    obtain ⟨task, resume, rfl⟩ := hrun nofun
    exact ⟨hpc, nofun⟩
  | done =>
    cases pc' with
    | begin m =>
      cases m with
      | runUntilIdle => exact ⟨rfl, nofun⟩
      | _ => cases hpc
    | _ => cases hpc
  | call ha hstep =>
    rcases callStep_untilIdle hs hpc ha hstep with ⟨-, -, fpc, rfl, -⟩ | ⟨fpc, -, hfind⟩
    · exact ⟨rfl, nofun⟩
    · cases hfind with
      | found | next => exact ⟨rfl, nofun⟩
      | none hempty => exact ⟨rfl, fun _ => ⟨rfl, hempty⟩⟩

/-- A step accounts for every task, in any set of deques with those in reach. -/
theorem SoloTrans.account (h : SoloTrans taskKind s slot w kind u pc s' u' pc')
    (hs : Sound s slot w u pc) (hpc : pc.untilIdle = true) (hds : inReach s.pool slot ⊆ ds) :
    Affinity.account ds s'.pool u' + s.pool.injected =
      Affinity.account ds s.pool u + s'.pool.injected := by
  have hslot : ∀ d ∈ slot.held, d ∈ ds := by
    intro d hd
    refine hds ?_
    cases slot with
    | none => exact absurd hd (Multiset.notMem_zero _)
    | some owned =>
      rw [Multiset.mem_singleton.1 hd]
      simp [inReach]
  have hlocal : ∀ {id d}, slot = some (id, d) → d ∈ ds := by
    rintro id d rfl
    exact hslot d (Multiset.mem_singleton_self d)
  simp only [Affinity.account]
  cases h with
  | @spawnLocal _ d _ task' _ howned =>
    have hpush := Pool.storedIn_push (p := s.pool.recordInjected task') (hlocal howned) task'
    change ((s.pool.recordInjected task').push d task').storedIn ds + 0 +
      s.pool.returned.map Prod.snd + s.pool.injected =
        s.pool.storedIn ds + 0 + s.pool.returned.map Prod.snd + (task' ::ₘ s.pool.injected)
    rw [hpush, ← Multiset.singleton_add]
    change s.pool.storedIn ds + {task'} + _ + _ + _ = _
    abel
  | @spawn _ task' =>
    change s.pool.storedIn ds + {task'} + s.pool.returned.map Prod.snd + s.pool.injected =
      s.pool.storedIn ds + 0 + s.pool.returned.map Prod.snd + (task' ::ₘ s.pool.injected)
    rw [← Multiset.singleton_add]
    abel
  | @pushLocal _ d task' _ howned =>
    change (s.pool.push d task').storedIn ds + 0 + s.pool.returned.map Prod.snd + s.pool.injected =
      s.pool.storedIn ds + {task'} + s.pool.returned.map Prod.snd + s.pool.injected
    rw [Pool.storedIn_push (hlocal howned), add_zero]
  | @push task' =>
    change (s.pool.pushInjector () task').storedIn ds + 0 + s.pool.returned.map Prod.snd +
        s.pool.injected =
      s.pool.storedIn ds + {task'} + s.pool.returned.map Prod.snd + s.pool.injected
    rw [Pool.storedIn_pushInjector, add_zero]
  | pushBack | done => rfl
  | call ha hstep =>
    rcases callStep_untilIdle hs hpc ha hstep with ⟨-, hpool, -⟩ | ⟨fpc, -, hfind⟩
    · rw [hpool]
    · cases hfind with
      | @found source p' task hf hsource =>
        have hstored := hf.storedIn hslot fun d hd _ => hds (hsource d hd)
        have hinjected : p'.injected = s.pool.injected := hf.sameWorkers.injected
        change p'.storedIn ds + 0 + Multiset.map Prod.snd (((), task) ::ₘ p'.returned) + _ =
          _ + p'.injected
        rw [Multiset.map_cons, hf.sameWorkers.returned, hinjected, ← hstored,
          ← Multiset.singleton_add]
        change p'.storedIn ds + 0 + ({task} + _) + _ = p'.storedIn ds + {task} + 0 + _ + _
        abel
      | next | none => rfl

/-- A step injects one task at most, and brings the call closer to its end unless it finds or
injects one. -/
theorem SoloTrans.rank (h : SoloTrans taskKind s slot w kind u pc s' u' pc')
    (hs : Sound s slot w u pc) (hpc : pc.untilIdle = true)
    (hn : (s.pool.core ()).registry.stealersCache.length = n) :
    s.pool.injected ≤ s'.pool.injected ∧
      pc'.rank n + spawnRank u' + work n s.pool < pc.rank n + spawnRank u + work n s'.pool := by
  have hrun := hs.run
  cases h with
  | spawnLocal => exact ⟨Multiset.le_cons_self .., by simp [spawnRank]⟩
  | spawn =>
    refine ⟨Multiset.le_cons_self .., ?_⟩
    simp only [work_recordInjected, spawnRank]
    omega
  | pushLocal | pushBack | push => exact ⟨le_rfl, by simp [spawnRank]⟩
  | done =>
    refine ⟨le_rfl, ?_⟩
    cases pc' with
    | begin m => simp [WorkerPc.rank]
    | _ => cases hpc
  | call ha hstep =>
    rcases callStep_untilIdle hs hpc ha hstep with ⟨rfl, hpool, fpc, rfl, hlt⟩ | ⟨fpc, rfl, hfind⟩
    · rw [hpool]
      exact ⟨le_rfl, by simpa [WorkerPc.rank] using hlt n⟩
    · have hpos : 0 < fpc.rank n := rank_pos fpc
      cases hfind with
      | found hf =>
        refine ⟨hf.sameWorkers.injected.ge, ?_⟩
        simp only [work_recordReturned, work_of_fetch hf, WorkerPc.rank, Method.found, spawnRank]
        omega
      | next _ hrank =>
        rw [hn] at hrank
        refine ⟨le_rfl, ?_⟩
        simpa [WorkerPc.rank] using hrank
      | none => exact ⟨le_rfl, by simpa [WorkerPc.rank, Method.notFound] using hpos⟩

end

/-! ## Runs of a thread that acts alone -/

section
variable {ι : Type} [DecidableEq ι] {taskKind : H → TaskKind} {c₀ c c' c'' : WorkerConfig H ι}
  {i : ι} {a : ι × WorkerAct H} {as : List (ι × WorkerAct H)} {slot : Slot} {w : Registration Unit}
  {kind : WorkerKind} {rest : List (Call H)} {u : PoolPc Unit H} {pc : WorkerPc H}

/-- A step of the thread is one of those above. -/
theorem step_solo (hloc : c.loc i = ⟨⟨slot, u⟩, ⟨w, kind, pc⟩ :: rest⟩) (hu : spawning u = true)
    (ha : alone i c a) (h : (affinityMachine taskKind ι).step c a = some c') :
    ∃ u' pc', c'.loc i = ⟨⟨slot, u'⟩, ⟨w, kind, pc'⟩ :: rest⟩ ∧
      SoloTrans taskKind c.shared slot w kind u pc c'.shared u' pc' := by
  obtain ⟨j, b⟩ := a
  obtain ⟨rfl, hsolo, hleave⟩ := ha
  obtain ⟨s', l', hp, rfl⟩ := step_iff.1 h
  simp only [hloc, List.head?_cons, Option.mem_some_iff, forall_eq'] at hp hleave
  obtain ⟨u', pc', rfl, htrans⟩ := workerStep_solo hu hleave hsolo hp
  exact ⟨u', pc', Function.update_self .., htrans⟩

/-- Thread `i` is in a call of the worker, and knows what it must. -/
def InCall (i : ι) (slot : Slot) (w : Registration Unit) (kind : WorkerKind) (rest : List (Call H))
    (c : WorkerConfig H ι) : Prop :=
  ∃ u pc, c.loc i = ⟨⟨slot, u⟩, ⟨w, kind, pc⟩ :: rest⟩ ∧ Sound c.shared slot w u pc

/-- It stays in this call. -/
theorem InCall.step (h : InCall i slot w kind rest c) (ha : alone i c a)
    (hst : (affinityMachine taskKind ι).step c a = some c') : InCall i slot w kind rest c' := by
  obtain ⟨u, pc, hloc, hs⟩ := h
  obtain ⟨u', pc', hloc', htrans⟩ := step_solo hloc hs.spawning ha hst
  exact ⟨u', pc', hloc', htrans.sound hs⟩

/-- `find_task` returns no task only where all queues are empty. -/
theorem InCall.allEmpty (h : InCall i slot w kind rest c) {m : Method} {fpc : FindPc WorkerEntry}
    (hfind : (c.loc i).calls = ⟨w, kind, .find m fpc⟩ :: rest) (ha : alone i c a)
    (hst : (affinityMachine taskKind ι).step c a = some c')
    (hnone : (c'.loc i).calls = ⟨w, kind, m.notFound⟩ :: rest) : AllEmpty c'.shared.pool slot := by
  obtain ⟨u, pc, hloc, hs⟩ := h
  obtain ⟨u', pc', hloc', htrans⟩ := step_solo hloc hs.spawning ha hst
  have hpc : pc = .find m fpc := by simpa [hloc] using hfind
  have hpc' : pc' = m.notFound := by simpa [hloc'] using hnone
  subst hpc
  have hidle : u = .idle := by
    by_contra hne
    obtain ⟨task, resume, hrun⟩ := hs.run hne
    cases hrun
  subst hidle
  cases htrans with
  | call hretry hstep =>
    have hcases := findStep_cases hs.ready hs.pc hretry hstep
    generalize c'.shared = s' at hcases
    cases hcases with
    | found => cases m <;> cases hpc'
    | next => cases m <;> cases hpc'
    | none hempty => exact hempty

/-- What a call of `run_until_idle` has done since it began, where the pool was `p₀`: it is in its
loop, or has returned with all queues empty, and accounts for every task that was in reach. -/
structure UntilIdle (i : ι) (slot : Slot) (w : Registration Unit) (kind : WorkerKind)
    (rest : List (Call H)) (p₀ : Pool Unit H) (c : WorkerConfig H ι) (u : PoolPc Unit H)
    (pc : WorkerPc H) : Prop where
  loc : c.loc i = ⟨⟨slot, u⟩, ⟨w, kind, pc⟩ :: rest⟩
  sound : Sound c.shared slot w u pc
  registry : (c.shared.pool.core ()).registry = (p₀.core ()).registry
  loop : pc.untilIdle = true
  leave : pc = .leave → u = .idle ∧ AllEmpty c.shared.pool slot
  account : Affinity.account (inReach p₀ slot) c.shared.pool u + p₀.injected =
    Affinity.account (inReach p₀ slot) p₀ .idle + c.shared.pool.injected
  injected : p₀.injected ≤ c.shared.pool.injected

/-- The measure of a call of `run_until_idle`, with `n` stealers. -/
def callRank (n : ℕ) (i : ι) (c : WorkerConfig H ι) : ℕ :=
  ((c.loc i).calls.head?.elim 0 fun call => call.pc.rank n) + spawnRank (c.loc i).pool.pc

/-- A step of `run_until_idle` goes on, and lowers the measure but for what it adds to the tasks. -/
theorem UntilIdle.step {p₀ : Pool Unit H} {n : ℕ}
    (hn : (p₀.core ()).registry.stealersCache.length = n)
    (h : ∃ u pc, UntilIdle i slot w kind rest p₀ c u pc) (ha : alone i c a)
    (hst : (affinityMachine taskKind ι).step c a = some c') :
    (∃ u pc, UntilIdle i slot w kind rest p₀ c' u pc) ∧
      callRank n i c' + work n c.shared.pool < callRank n i c + work n c'.shared.pool := by
  obtain ⟨u, pc, h⟩ := h
  obtain ⟨u', pc', hloc', htrans⟩ := step_solo h.loc h.sound.spawning ha hst
  obtain ⟨hloop, hleave⟩ := htrans.untilIdle h.sound h.loop
  have hreach : inReach c.shared.pool slot = inReach p₀ slot := by
    rw [inReach, inReach, h.registry]
  obtain ⟨hinjected, hrank⟩ := htrans.rank h.sound h.loop (by rw [h.registry, hn])
  constructor
  · refine ⟨u', pc', hloc', htrans.sound h.sound, ?_, hloop, hleave, ?_, h.injected.trans hinjected⟩
    · rw [(htrans.localGrowth h.sound).registry, h.registry]
    · have hstep := htrans.account h.sound h.loop hreach.le
      have hprev := h.account
      refine add_right_cancel (b := c.shared.pool.injected) ?_
      calc Affinity.account (inReach p₀ slot) c'.shared.pool u' + p₀.injected +
            c.shared.pool.injected
          = Affinity.account (inReach p₀ slot) c'.shared.pool u' + c.shared.pool.injected +
              p₀.injected := add_right_comm ..
        _ = Affinity.account (inReach p₀ slot) c.shared.pool u + p₀.injected +
              c'.shared.pool.injected := by rw [hstep, add_right_comm]
        _ = Affinity.account (inReach p₀ slot) p₀ .idle + c'.shared.pool.injected +
              c.shared.pool.injected := by rw [hprev, add_right_comm]
  · simpa only [callRank, h.loc, hloc', List.head?_cons, Option.elim_some] using hrank

/-- A call of `run_until_idle` that has not returned has a step to take. -/
theorem UntilIdle.exists_step {p₀ : Pool Unit H} (h : UntilIdle i slot w kind rest p₀ c u pc)
    (hpc : pc ≠ .leave) :
    ∃ a c', alone i c a ∧ (affinityMachine taskKind ι).step c a = some c' := by
  have hcan : ∀ b : WorkerAct H, b.solo = true →
      (workerStep taskKind c.shared ⟨⟨slot, u⟩, ⟨w, kind, pc⟩ :: rest⟩ b).isSome = true →
      ∃ a c', alone i c a ∧ (affinityMachine taskKind ι).step c a = some c' := by
    intro b hsolo henabled
    obtain ⟨⟨s', l'⟩, hp⟩ := Option.isSome_iff_exists.1 henabled
    refine ⟨(i, b), _, ⟨rfl, hsolo, ?_⟩, step_iff.2 ⟨s', l', ?_, rfl⟩⟩
    · simpa [h.loc] using hpc
    · show workerStep taskKind c.shared (c.loc i) b = _
      rw [h.loc, hp]
  have hspawning := h.sound.spawning
  have hloop := h.loop
  cases u with
  | idle =>
    cases pc with
    | begin m =>
      cases m with
      | runUntilIdle => exact hcan .go rfl rfl
      | _ => cases hloop
    | run task resume => exact hcan .done rfl rfl
    | find m fpc =>
      cases hsource : fpc.source w with
      | some source =>
        refine hcan (.attempt (.batch 0)) rfl ?_
        simp [workerStep, programStep, callStep, findStep, hsource]
      | none =>
        cases fpc with
        | stealers => exact hcan (.victim 0) rfl rfl
        | peers left =>
          cases left with
          | nil => exact hcan .go rfl rfl
          | cons peer rest' =>
            have hid : peer.id = w.id := by
              by_contra hne
              simp [FindPc.source, hne] at hsource
            refine hcan .go rfl ?_
            simp [workerStep, programStep, callStep, findStep, hid]
        | _ => cases hsource
    | leave => exact absurd rfl hpc
    | _ => cases hloop
  | inject k task loop =>
    cases loop with
    | none =>
      cases slot with
      | none => exact hcan .go rfl rfl
      | some owned => exact hcan .go rfl rfl
    | some => cases hspawning
  | push k task loop =>
    cases loop with
    | none => exact hcan .go rfl rfl
    | some => cases hspawning
  | _ => cases hspawning

omit [DecidableEq ι] in
/-- The tasks in reach and those returned, at the start and now. -/
theorem UntilIdle.account_eq {p₀ : Pool Unit H} (h : UntilIdle i slot w kind rest p₀ c u pc)
    {spawned : Multiset H} (hspawned : c.shared.pool.injected = p₀.injected + spawned) :
    c.shared.pool.storedIn (inReach p₀ slot) + u.carried + c.shared.pool.returned.map Prod.snd =
      queued p₀ slot + p₀.returned.map Prod.snd + spawned := by
  have hprev := h.account
  rw [hspawned, ← add_assoc, add_right_comm] at hprev
  have hcancel := add_right_cancel hprev
  simpa [Affinity.account, queued, PoolPc.carried] using hcancel

/-- A worker that is registered is ready on the thread that registered it. -/
theorem ready_of_registered [Fintype ι] (h₀ : (affinityMachine taskKind ι).Reachable anyStep c₀)
    (hhome : (c₀.loc i).pool.slot = some (w.id, w.deque))
    (h : (affinityMachine taskKind ι).Reach anyStep c₀ c)
    (hlisted : ⟨w.id, w.deque⟩ ∈ (c.shared.pool.core ()).registry.workers)
    (hidle : (c.loc i).pool.pc = .idle) : Ready c.shared.pool (c.loc i).pool.slot w := by
  have hpool₀ : (poolMachine Unit H ι).Reachable anyStep (poolConfig c₀) := reachable_pool h₀
  have hrun : (poolMachine Unit H ι).Reach anyStep (poolConfig c₀) (poolConfig c) :=
    reach_map_run workerStep_simulates h
  have hpool := hpool₀.trans hrun
  have hids := reachable_ids hpool ()
  refine ⟨(reachable_tagged hpool).1.cache (), ⟨_, hlisted, rfl⟩, fun e he hid hne => ?_⟩
  have hsame : e = ⟨w.id, w.deque⟩ := List.inj_on_of_nodup_map hids he hlisted hid
  subst hsame
  have hslot : ((poolConfig c₀).loc i).slot.map Prod.snd = some w.deque := by
    show (c₀.loc i).pool.slot.map Prod.snd = _
    rw [hhome]
    rfl
  exact (inSlot_or_empty hpool₀ hrun hslot hidle).resolve_left hne

/-- A worker is registered, and used on the thread that registered it, while no other thread acts,
attempts to get a task are not retried, and tasks only spawn. Then in every run of one of the
methods of the worker `find_task` returns no task only where the injector, the local deque of the
thread and the deques of all registered workers are empty. A run of `run_until_idle` has no more
steps than a bound by the tasks that were queued and the tasks that were spawned meanwhile; until it
returns it has a step to take; and where it returns, all these queues are empty, and each task that
was queued or spawned has been returned for execution once. -/
theorem run_until_idle_empties [Fintype ι] {m : Method}
    (h₀ : (affinityMachine taskKind ι).Reachable anyStep c₀)
    (hhome : (c₀.loc i).pool.slot = some (w.id, w.deque))
    (h : (affinityMachine taskKind ι).Reach anyStep c₀ c)
    (hlisted : ⟨w.id, w.deque⟩ ∈ (c.shared.pool.core ()).registry.workers)
    (hidle : (c.loc i).pool.pc = .idle) (hcall : (c.loc i).calls = ⟨w, kind, .begin m⟩ :: rest)
    (hall : (affinityMachine taskKind ι).AllSteps (alone i) c as)
    (hrun : (affinityMachine taskKind ι).run c as = some c') :
    (∀ m' fpc a c'', (c'.loc i).calls = ⟨w, kind, .find m' fpc⟩ :: rest → alone i c' a →
      (affinityMachine taskKind ι).step c' a = some c'' →
      (c''.loc i).calls = ⟨w, kind, m'.notFound⟩ :: rest →
        AllEmpty c''.shared.pool (c''.loc i).pool.slot) ∧
    (m = .runUntilIdle →
      ∃ spawned, c'.shared.pool.injected = c.shared.pool.injected + spawned ∧
        as.length ≤ ((c.shared.pool.core ()).registry.stealersCache.length + 11) *
          ((queued c.shared.pool (c.loc i).pool.slot).card + spawned.card + 1) ∧
        ((c'.loc i).calls ≠ ⟨w, kind, .leave⟩ :: rest →
          ∃ a c'', alone i c' a ∧ (affinityMachine taskKind ι).step c' a = some c'') ∧
        ((c'.loc i).calls = ⟨w, kind, .leave⟩ :: rest →
          AllEmpty c'.shared.pool (c'.loc i).pool.slot ∧
          c'.shared.pool.returned.map Prod.snd = c.shared.pool.returned.map Prod.snd +
            queued c.shared.pool (c.loc i).pool.slot + spawned)) := by
  have hready := ready_of_registered h₀ hhome h hlisted hidle
  have hloc : c.loc i = ⟨⟨(c.loc i).pool.slot, .idle⟩, ⟨w, kind, .begin m⟩ :: rest⟩ := by
    rw [← hidle, ← hcall]
  have hsound : Sound c.shared (c.loc i).pool.slot w .idle (.begin m) :=
    ⟨hready, rfl, fun hne => absurd rfl hne, trivial⟩
  generalize (c.loc i).pool.slot = slot at hready hloc hsound ⊢
  constructor
  · intro m' fpc a c'' hfind ha hst hnone
    have hin : InCall i slot w kind rest c' := (hall.reach hrun).invariant
      (I := InCall i slot w kind rest) ⟨_, _, hloc, hsound⟩ fun _ _ _ hI hG hst => hI.step hG hst
    obtain ⟨u'', pc'', hloc'', -⟩ := hin.step ha hst
    rw [hloc'']
    exact hin.allEmpty hfind ha hst hnone
  · rintro rfl
    have hstart : UntilIdle i slot w kind rest c.shared.pool c .idle (.begin .runUntilIdle) :=
      ⟨hloc, hsound, rfl, rfl, nofun, rfl, le_rfl⟩
    obtain ⟨⟨u', pc', hend⟩, hlen⟩ := AllSteps.length_le _ _
      (fun _ _ _ hI hG hst => UntilIdle.step rfl hI hG hst) as ⟨_, _, hstart⟩ hall hrun
    obtain ⟨spawned, hspawned⟩ := Multiset.le_iff_exists_add.1 hend.injected
    have haccount := hend.account_eq hspawned
    refine ⟨spawned, hspawned, ?_, fun hcalls => ?_, fun hcalls => ?_⟩
    · have hcall : callRank (c.shared.pool.core ()).registry.stealersCache.length i c =
          (c.shared.pool.core ()).registry.stealersCache.length + 7 := by
        rw [callRank, hloc]
        rfl
      rw [hcall] at hlen
      refine length_le_of_work hspawned haccount ?_
      omega
    · refine hend.exists_step fun hpc => hcalls ?_
      rw [hend.loc, hpc]
    · have hpc : pc' = .leave := by simpa [hend.loc] using hcalls
      obtain ⟨rfl, hempty⟩ := hend.leave hpc
      have hnone : c'.shared.pool.storedIn (inReach c.shared.pool slot) = 0 := by
        rw [inReach, ← hend.registry]
        exact hempty.queued_eq
      rw [hend.loc]
      refine ⟨hempty, ?_⟩
      rw [hnone] at haccount
      simpa [PoolPc.carried, add_comm] using haccount

end

instance {ι : Type} [DecidableEq ι] [DecidableEq H] (i : ι) (c : WorkerConfig H ι)
    (a : ι × WorkerAct H) : Decidable (alone i c a) :=
  inferInstanceAs (Decidable (_ ∧ _ ∧ ∀ call ∈ (c.loc i).calls.head?, _))

/-- The first thread registers a worker. -/
def registerRun : List (Bool × WorkerAct ℕ) :=
  [(false, .register .native), (false, .go), (false, .go), (false, .go)]

/-- Another thread registers a worker and queues two tasks, and the first thread calls
`run_until_idle`. -/
def queueTwo : List (Bool × WorkerAct ℕ) :=
  [(true, .register .native), (true, .go), (true, .go), (true, .go), (true, .handOff 8),
    (true, .handOff 9), (false, .runUntilIdle ⟨(), 1, 0⟩)]

/-- It steals both tasks at once, task 8 spawns task 10, and it runs 9 and 10 from its deque. -/
def idleRun : List (Bool × WorkerAct ℕ) :=
  [(false, .go), (false, .attempt (.batch 0)), (false, .attempt (.batch 0)),
    (false, .attempt (.batch 0)), (false, .victim 0), (false, .attempt (.batch 1)),
    (false, .handOff 10), (false, .done), (false, .go), (false, .attempt (.batch 0)),
    (false, .done), (false, .go), (false, .attempt (.batch 0)), (false, .done), (false, .go),
    (false, .attempt (.batch 0)), (false, .attempt (.batch 0)), (false, .victim 1), (false, .go),
    (false, .attempt (.batch 0)), (false, .go)]

/-- The call returns with all queues empty, and has run the two tasks that were queued and the one
that was spawned. -/
theorem run_until_idle_empties_steals : ∃ c₀ c c' : WorkerConfig ℕ Bool,
    (affinityMachine oneCoroutine Bool).run (start ℕ Bool) registerRun = some c₀ ∧
    (affinityMachine oneCoroutine Bool).run c₀ queueTwo = some c ∧
    (affinityMachine oneCoroutine Bool).runIf (alone false) c idleRun = some c' ∧
    c'.shared.pool.returned = {((), 10), ((), 9), ((), 8)} ∧
    AllEmpty c'.shared.pool (c'.loc false).pool.slot := by
  have key : ∀ c₀ c c' : WorkerConfig ℕ Bool,
      (affinityMachine oneCoroutine Bool).run (start ℕ Bool) registerRun = some c₀ →
      (affinityMachine oneCoroutine Bool).run c₀ queueTwo = some c →
      (affinityMachine oneCoroutine Bool).runIf (alone false) c idleRun = some c' →
      (c₀.loc false).pool.slot = some (1, 0) →
      ⟨1, 0⟩ ∈ (c.shared.pool.core ()).registry.workers → (c.loc false).pool.pc = .idle →
      (c.loc false).calls = [⟨⟨(), 1, 0⟩, .native, .begin .runUntilIdle⟩] →
      (c'.loc false).calls = [⟨⟨(), 1, 0⟩, .native, .leave⟩] →
      AllEmpty c'.shared.pool (c'.loc false).pool.slot := by
    intro c₀ c c' h₀ h₁ h₂ hhome hlisted hidle hcall hleave
    obtain ⟨hall, hrun⟩ := allSteps_of_runIf _ h₂
    obtain ⟨spawned, -, -, -, hend⟩ := (run_until_idle_empties (reach_of_run _ h₀) hhome
      (reach_of_run _ h₁) hlisted hidle hcall hall hrun).2 rfl
    exact (hend hleave).1
  exact ⟨_, _, _, rfl, rfl, rfl, rfl, key _ _ _ rfl rfl rfl rfl (by decide) rfl rfl rfl⟩

end Affinity

end Hypertile
