import Hypertile.Pool.Registered

/-!
# A task stays with the core it was spawned through

The queues of a core are its injector and the deques that its registrations made. The local deque of
a thread is one of them for one core only, and nothing in the slot says for which, so tasks stay in
the queues of their core in the runs whose operations for a core begin on threads that have no local
deque of another (`staysHome`), and that keep to the guard of `queues_reachable` (`stays_home`). The
guard is needed: a spawn takes the local deque of its thread whatever core made it
(`spawned_into_other_core`).

`home` says which core a task was spawned through; its cell keeps that core, and every wake and
re-queue goes through it.
-/

namespace Hypertile

open Machine Machine.Threads

variable {κ H : Type} [DecidableEq κ] {ι : Type} [DecidableEq ι] {c : PoolConfig κ H ι}
  {home : H → κ}

/-! ## The queues of a core -/

namespace Pool

/-- The core that a deque was made for. -/
def coreOf (p : Pool κ H) (d : DequeId) : Option κ := (p.madeFor d).map Prod.fst

/-- The deque in the slot, if any, is one of the core. -/
def ServesOnly (p : Pool κ H) (slot : Slot) (k : κ) : Prop :=
  ∀ owned ∈ slot, p.coreOf owned.2 = some k

/-- The deque may be flushed to the injector of the core: it is one of the core, or empty. -/
def Flushable (p : Pool κ H) (k : κ) (d : DequeId) : Prop :=
  p.coreOf d = some k ∨ (p.deque d).isEmpty = true

/-- The tasks in the queues of a core are those of the core, and so are those that were returned to
its workers. -/
structure Home (home : H → κ) (p : Pool κ H) : Prop where
  injector : ∀ k, ∀ task ∈ (p.core k).injector, home task = k
  deque : ∀ d k, p.coreOf d = some k → ∀ task ∈ p.deque d, home task = k
  returned : ∀ x ∈ p.returned, home x.2 = x.1

variable {p p' : Pool κ H} {k : κ}

namespace Home

omit [DecidableEq κ] in
/-- A deque is filled with tasks of its core. -/
theorem setDeque (h : p.Home home) {d : DequeId} {tasks : List H}
    (ht : ∀ k, p.coreOf d = some k → ∀ task ∈ tasks, home task = k) :
    (p.setDeque d tasks).Home home := by
  refine ⟨h.injector, fun d' k hk task htask => ?_, h.returned⟩
  by_cases hd : d' = d
  · subst hd
    rw [setDeque_self] at htask
    exact ht k hk task htask
  · rw [setDeque_of_ne hd] at htask
    exact h.deque d' k hk task htask

omit [DecidableEq κ] in
/-- Some tasks of a deque are left. -/
theorem keepDeque (h : p.Home home) {d : DequeId} {tasks : List H} (ht : tasks ⊆ p.deque d) :
    (p.setDeque d tasks).Home home :=
  h.setDeque fun k hk _ htask => h.deque d k hk _ (ht htask)

/-- A core is changed, and its injector has tasks of the core. -/
theorem setCore (h : p.Home home) {core : ExecutorCore H}
    (ht : ∀ task ∈ core.injector, home task = k) : (p.setCore k core).Home home := by
  refine ⟨fun j task htask => ?_, h.deque, h.returned⟩
  by_cases hj : j = k
  · subst hj
    rw [setCore_self] at htask
    exact ht task htask
  · rw [setCore_of_ne hj] at htask
    exact h.injector j task htask

omit [DecidableEq κ] in
/-- A batch of tasks of the core is received. -/
theorem receive (h : p.Home home) {slot : Slot} {tasks : List H} (hslot : p.ServesOnly slot k)
    (ht : ∀ task ∈ tasks, home task = k) : (p.receive slot tasks).Home home := by
  cases slot with
  | none => exact h
  | some owned =>
    refine h.setDeque fun j hj task htask => ?_
    rcases List.mem_append.1 htask with hold | hnew
    · exact h.deque _ j hj task hold
    · have hk := hslot owned rfl
      rw [hk] at hj
      cases hj
      exact ht task hnew

omit [DecidableEq κ] in
/-- A task is pushed to a deque of its core. -/
theorem push (h : p.Home home) {d : DequeId} {task : H} (hd : p.coreOf d = some (home task)) :
    (p.push d task).Home home := by
  refine h.setDeque fun k hk x hx => ?_
  rcases List.mem_append.1 hx with hold | hnew
  · exact h.deque d k hk x hold
  · rw [hd] at hk
    cases hk
    rw [List.mem_singleton.1 hnew]

/-- The registry of a core is changed. -/
theorem setRegistry (h : p.Home home) (k : κ) (r : WorkerRegistry) :
    (p.setRegistry k r).Home home :=
  h.setCore (h.injector k)

omit [DecidableEq κ] in
/-- A deque is made. -/
theorem newDeque (h : p.Home home) (hnil : p.deque p.nextDeque = []) (k : κ) (id : WorkerId) :
    (p.newDeque k id).2.Home home := by
  refine ⟨h.injector, fun d j hj task htask => ?_, h.returned⟩
  by_cases hd : d = p.nextDeque
  · subst hd
    have hmem : task ∈ p.deque p.nextDeque := htask
    rw [hnil] at hmem
    cases hmem
  · have hsame : (p.newDeque k id).2.madeFor d = p.madeFor d := Function.update_of_ne hd ..
    rw [Pool.coreOf, hsame] at hj
    exact h.deque d j hj task htask

omit [DecidableEq κ] in
/-- A task is returned to a worker of its core. -/
theorem recordReturned (h : p.Home home) {task : H} (ht : home task = k) :
    (p.recordReturned k task).Home home := by
  refine ⟨h.injector, h.deque, fun x hx => ?_⟩
  rcases Multiset.mem_cons.1 hx with rfl | hx
  · exact ht
  · exact h.returned x hx

end Home

end Pool

/-- A place of the core is looked at. -/
def Source.Of (p : Pool κ H) (k : κ) : Source κ → Prop
  | .injector j => j = k
  | .local => True
  | .stealer d => p.coreOf d = some k

/-- An attempt at a place of a core moves tasks between the queues of the core and gives one of its
tasks. -/
theorem FetchTrans.keepsHome {p p' : Pool κ H} {slot : Slot} {source : Source κ} {r : Steal H}
    {k : κ}
    (h : FetchTrans p slot source p' r) (hp : p.Home home) (hslot : p.ServesOnly slot k)
    (hsource : source.Of p k) : p'.Home home ∧ ∀ task, r = .success task → home task = k := by
  cases h with
  | nothing hr => exact ⟨hp, fun task he => absurd he (hr task)⟩
  | @popped _ id d task rest hs hd =>
    have hk : p.coreOf d = some k := hslot (id, d) hs
    refine ⟨hp.keepDeque ?_, fun task' he => ?_⟩
    · rw [hd]
      exact List.subset_cons_self ..
    · cases he
      exact hp.deque d k hk task (by simp [hd])
  | @injector j n task rest hj =>
    have heq : j = k := hsource
    subst heq
    have htasks : ∀ x ∈ task :: rest, home x = j := hj ▸ hp.injector j
    refine ⟨?_, fun task' he => ?_⟩
    · refine Pool.Home.receive (k := j) (hp.setCore fun x hx => ?_) hslot fun x hx => ?_
      · exact htasks x (List.mem_cons_of_mem _ (List.mem_of_mem_drop hx))
      · exact htasks x (List.mem_cons_of_mem _ (List.mem_of_mem_take hx))
    · cases he
      exact htasks task List.mem_cons_self
  | @stolen d n task rest _ hd =>
    have hk : p.coreOf d = some k := hsource
    have htasks : ∀ x ∈ task :: rest, home x = k := hd ▸ hp.deque d k hk
    refine ⟨?_, fun task' he => ?_⟩
    · refine Pool.Home.receive (k := k) (hp.keepDeque fun x hx => ?_) hslot fun x hx => ?_
      · rw [hd]
        exact List.mem_cons_of_mem _ (List.mem_of_mem_drop hx)
      · exact htasks x (List.mem_cons_of_mem _ (List.mem_of_mem_take hx))
    · cases he
      exact htasks task List.mem_cons_self

/-! ## What a thread has under way -/

/-- The task that a thread is about to push, and the core that it pushes it to. -/
def PoolPc.pushes : PoolPc κ H → Option (κ × H)
  | .inject k task _ | .push k task _ => some (k, task)
  | _ => none

/-- Between two operations, or about to install or to register a deque. -/
def PoolPc.restful : PoolPc κ H → Bool
  | .idle | .install _ _ _ | .register _ _ _ => true
  | _ => false

/-- The deques that a call of `find_task` has still to visit. -/
def FindPc.left : FindPc WorkerEntry → List DequeId
  | .peers rest => rest.map (·.stealer)
  | .peerAgain peer rest => peer.stealer :: rest.map (·.stealer)
  | _ => []

/-- A thread flushes a deque to the injector of a core: it drains it, or is about to take it. -/
inductive PoolThread.Flushing : PoolThread κ H → κ → DequeId → Prop
  | takeAny {owner id : WorkerId} {d worker : DequeId} {k : κ} :
      Flushing ⟨some (owner, d), .takeAny k id worker⟩ k d
  | takeLocal {d : DequeId} {g : Registration κ} :
      Flushing ⟨some (g.id, d), .takeLocal g⟩ g.core d
  | loop {t : PoolThread κ H} {loop : Drain κ} (hloop : t.pc.loop = some loop) :
      Flushing t loop.core loop.deque

/-- What a thread has under way keeps the tasks in the queues of their core. -/
structure PoolThread.AtHome (home : H → κ) (p : Pool κ H) (t : PoolThread κ H) : Prop where
  pushes : ∀ k task, t.pc.pushes = some (k, task) → home task = k ∧ p.ServesOnly t.slot k
  finds : ∀ w pc, t.pc = .find w pc →
    p.ServesOnly t.slot w.core ∧ ∀ d ∈ pc.left, p.coreOf d = some w.core
  flushes : ∀ k d, t.Flushing k d → p.Flushable k d

/-- What an operation of a core asks of the slot of the thread it begins on. -/
def PoolLabel.KeepsHome (home : H → κ) (p : Pool κ H) (slot : Slot) : PoolLabel κ H → Prop
  | .inject k task | .handOff k task => home task = k ∧ p.ServesOnly slot k
  | .tryPushLocal task => p.ServesOnly slot (home task)
  | .fetch k source _ => source.Of p k ∧ p.ServesOnly slot k
  | .findTask w => p.ServesOnly slot w.core
  | .newWorker k => ∀ owned ∈ slot, p.Flushable k owned.2
  | .dropGuard g => ∀ owned ∈ slot, owned.1 = g.id → p.Flushable g.core owned.2
  | _ => True

/-- Every operation of a core begins on a thread whose local deque, if any, is one of the core; a
registration and the drop of a guard that would flush it may also find it empty. In addition the
guard of `queues_reachable` is met. -/
def staysHome (home : H → κ) (c : PoolConfig κ H ι) (a : ι × PoolLabel κ H) : Prop :=
  ownDeques c a ∧ a.2.KeepsHome home c.shared (c.loc a.1).slot

/-- Where a thread may flush a deque. -/
def PoolPc.flushes : PoolPc κ H → Bool
  | .takeAny _ _ _ | .takeLocal _ | .drain _ => true
  | .inject _ _ loop | .push _ _ loop => loop.isSome
  | _ => false

omit [DecidableEq κ] [DecidableEq ι] in
/-- A thread flushes a deque in these places only. -/
theorem PoolThread.Flushing.flushes {t : PoolThread κ H} {k : κ} {d : DequeId}
    (h : t.Flushing k d) : t.pc.flushes = true := by
  cases h with
  | takeAny | takeLocal => rfl
  | @loop t loop hloop =>
    obtain ⟨slot, pc⟩ := t
    cases pc with
    | drain => rfl
    | inject _ _ l | push _ _ l =>
      have hl : l = some loop := hloop
      subst hl
      rfl
    | _ => cases hloop

omit [DecidableEq κ] [DecidableEq ι] in
/-- A thread holds the deque that it flushes. -/
theorem PoolThread.Flushing.mem_held {t : PoolThread κ H} {k : κ} {d : DequeId}
    (h : t.Flushing k d) : d ∈ t.held := by
  cases h with
  | takeAny | takeLocal => exact Multiset.mem_add.2 (.inl (Multiset.mem_singleton_self d))
  | loop hloop => exact PoolThread.loop_mem_held hloop

namespace FindPc

variable {w : Registration κ} {source : Source κ} {p : Pool κ H}

omit [DecidableEq κ] in
/-- What `find_task` tries is a place of the worker's core. -/
theorem source_of {pc : FindPc WorkerEntry} (h : pc.source w = some source)
    (hleft : ∀ d ∈ pc.left, p.coreOf d = some w.core) : source.Of p w.core := by
  rcases source_cases h with ⟨-, rfl⟩ | ⟨-, rfl⟩ | ⟨peer, rest, rfl | rfl, rfl⟩
  · exact rfl
  · exact trivial
  · exact hleft peer.stealer List.mem_cons_self
  · exact hleft peer.stealer List.mem_cons_self

/-- An attempt that gave nothing leaves no new deque to visit. -/
theorem left_onEmpty (pc : FindPc WorkerEntry) : pc.onEmpty.left ⊆ pc.left := by
  cases pc with
  | peers rest =>
    cases rest with
    | nil => exact List.Subset.refl _
    | cons => exact List.subset_cons_self ..
  | peerAgain => exact List.subset_cons_self ..
  | _ => exact List.nil_subset _

/-- Neither does one that has to be retried. -/
theorem left_onRetry (pc : FindPc WorkerEntry) : pc.onRetry.left ⊆ pc.left := by
  cases pc with
  | peers rest =>
    cases rest with
    | nil => exact List.Subset.refl _
    | cons => exact List.Subset.refl _
  | peerAgain => exact List.subset_cons_self ..
  | _ => exact List.nil_subset _

end FindPc

/-! ## The steps -/

namespace PoolTrans

variable {p p' : Pool κ H} {t t' : PoolThread κ H} {a : PoolLabel κ H}

/-- A deque stays one of its core. -/
theorem coreOf (h : PoolTrans p t a p' t') (hp : p.Tagged) {d : DequeId} {k : κ}
    (hd : p.coreOf d = some k) : p'.coreOf d = some k := by
  obtain ⟨owner, hmade, hk⟩ := Option.map_eq_some_iff.1 hd
  exact Option.map_eq_some_iff.2 ⟨owner, h.madeFor hp hmade, hk⟩

/-- A slot goes on to hold a deque of the core. -/
theorem servesOnly (h : PoolTrans p t a p' t') (hp : p.Tagged) {slot : Slot} {k : κ}
    (hslot : p.ServesOnly slot k) : p'.ServesOnly slot k :=
  fun owned hmem => h.coreOf hp (hslot owned hmem)

/-- A step that meets the guard keeps the tasks in the queues of their core. -/
theorem keepsHome (h : PoolTrans p t a p' t') (hlive : DequesLive p) (hp : p.Home home)
    (ht : t.AtHome home p) (ha : a.KeepsHome home p t.slot) : p'.Home home := by
  have pushed : ∀ {id d k task}, t.slot = some (id, d) → home task = k ∧ p.ServesOnly t.slot k →
      (p.push d task).Home home := by
    rintro id d k task hslot ⟨rfl, hserves⟩
    exact hp.push (hserves (id, d) hslot)
  cases h with
  | @handOffLocal id d _ task =>
    have hnew := pushed rfl ha
    exact ⟨hnew.injector, hnew.deque, hnew.returned⟩
  | @tryPushLocal id d task =>
    have hnew := pushed rfl ⟨rfl, ha⟩
    exact ⟨hnew.injector, hnew.deque, hnew.returned⟩
  | @injectLocal _ _ k task => exact pushed rfl (ht.pushes k task rfl)
  | fetch hf =>
    obtain ⟨hmoved, hgot⟩ := hf.keepsHome hp ha.2 ha.1
    exact hmoved.recordReturned (hgot _ rfl)
  | fetchNone hf => exact (hf.keepsHome hp ha.2 ha.1).1
  | @findGot _ w pc _ _ _ _ hpc hf =>
    obtain ⟨hserves, hleft⟩ := ht.finds w pc rfl
    obtain ⟨hmoved, hgot⟩ := hf.keepsHome hp hserves (FindPc.source_of hpc hleft)
    exact hmoved.recordReturned (hgot _ rfl)
  | @findNext _ w pc _ _ _ _ _ hpc hf =>
    obtain ⟨hserves, hleft⟩ := ht.finds w pc rfl
    exact (hf.keepsHome hp hserves (FindPc.source_of hpc hleft)).1
  | @newWorker _ k =>
    refine (hp.setRegistry k _).newDeque ?_ k _
    by_contra hne
    exact absurd (hlive _ hne).1 (Nat.lt_irrefl _)
  | @dropGuard _ g =>
    have hnew := hp.setRegistry g.core ((p.core g.core).registry.deregister g.id)
    exact ⟨hnew.injector, hnew.deque, hnew.returned⟩
  | @register _ k id worker =>
    have hnew := hp.setRegistry k ((p.core k).registry.register ⟨id, worker⟩)
    exact ⟨hnew.injector, hnew.deque, hnew.returned⟩
  | @shutdown _ k => exact hp.setCore (hp.injector k)
  | @push _ k task =>
    refine hp.setCore fun x hx => ?_
    rcases List.mem_append.1 hx with hold | hnew
    · exact hp.injector k x hold
    · rw [List.mem_singleton.1 hnew]
      exact (ht.pushes k task rfl).1
  | @drain _ loop task rest hq =>
    refine hp.keepDeque ?_
    rw [hq]
    exact List.subset_cons_self ..
  | _ => exact ⟨hp.injector, hp.deque, hp.returned⟩

/-- What a thread has under way stays at home across a step of another that has none of its deques
in the slot. -/
theorem atHome_other (h : PoolTrans p t a p' t') (hp : p.Tagged) {u : PoolThread κ H}
    (hu : u.AtHome home p) (hheld : ∀ d ∈ u.held, d ∉ t.slot.held) : u.AtHome home p' := by
  refine ⟨fun k task hpush => ?_, fun w pc hpc => ?_, fun k d hflush => ?_⟩
  · obtain ⟨htask, hserves⟩ := hu.pushes k task hpush
    exact ⟨htask, h.servesOnly hp hserves⟩
  · obtain ⟨hserves, hleft⟩ := hu.finds w pc hpc
    exact ⟨h.servesOnly hp hserves, fun d hd => h.coreOf hp (hleft d hd)⟩
  · rcases hu.flushes k d hflush with hk | hnil
    · exact .inl (h.coreOf hp hk)
    · have hle := h.length_le (hheld d hflush.mem_held)
      rw [List.isEmpty_iff.1 hnil] at hle
      exact .inr (List.isEmpty_iff.2 (List.eq_nil_of_length_eq_zero (Nat.le_zero.1 hle)))

omit [DecidableEq κ] in
/-- A thread between two operations, or about to install or to register a deque, is at home. -/
theorem atHome_of_restful {slot : Slot} {pc : PoolPc κ H} (h : pc.restful = true) :
    PoolThread.AtHome home p ⟨slot, pc⟩ := by
  cases pc with
  | idle | install | register =>
    exact ⟨nofun, nofun, fun k d hflush => absurd hflush.flushes Bool.false_ne_true⟩
  | _ => cases h

/-- What a thread has under way stays at home across its own step, if the step meets the guard. -/
theorem atHome_own (h : PoolTrans p t a p' t') (htag : p.Tagged) (hs : t.SlotEmptied)
    (hp : p.Home home) (ht : t.AtHome home p) (ha : a.KeepsHome home p t.slot) :
    t'.AtHome home p' := by
  have h' := h
  have unflushed : ∀ {u : PoolThread κ H} {k d}, u.pc.flushes = false → u.Flushing k d →
      p'.Flushable k d := by
    intro u k d hno hflush
    rw [hflush.flushes] at hno
    cases hno
  cases h with
  | inject | handOff =>
    refine ⟨fun j x hx => ?_, nofun, fun j d hflush => unflushed rfl hflush⟩
    cases hx
    exact ha
  | @findTask _ w pc _ hpc =>
    refine ⟨nofun, fun w' pc' heq => ?_, fun j d hflush => unflushed rfl hflush⟩
    cases heq
    refine ⟨ha, fun d hd => ?_⟩
    rcases hpc with rfl | rfl <;> cases hd
  | @newWorker slot k =>
    refine ⟨nofun, nofun, fun j d hflush => ?_⟩
    cases hflush with
    | takeAny =>
      rcases ha _ rfl with hk | hnil
      · exact .inl (h'.coreOf htag hk)
      · exact .inr hnil
    | loop hloop => cases hloop
  | @dropGuard slot g hg =>
    refine ⟨nofun, nofun, fun j d hflush => ?_⟩
    cases hflush with
    | takeLocal => exact ha _ rfl rfl
    | loop hloop => cases hloop
  | @injectLocal _ _ _ _ loop =>
    cases loop with
    | none => exact atHome_of_restful rfl
    | some loop => cases hs rfl
  | @injectBack k task loop =>
    refine ⟨fun j x hx => ?_, nofun, fun j d hflush => ?_⟩
    · cases hx
      exact ht.pushes k task rfl
    · cases hflush with
      | loop hloop => exact ht.flushes _ _ (.loop hloop)
  | @push _ _ _ loop =>
    cases loop with
    | none => exact atHome_of_restful rfl
    | some loop =>
      refine ⟨nofun, nofun, fun j d hflush => ?_⟩
      cases hflush with
      | loop hloop => exact ht.flushes _ _ (.loop hloop)
  | takeAny =>
    refine ⟨nofun, nofun, fun j d hflush => ?_⟩
    cases hflush with
    | loop hloop =>
      cases hloop
      exact ht.flushes _ _ .takeAny
  | takeLocal =>
    refine ⟨nofun, nofun, fun j d hflush => ?_⟩
    cases hflush with
    | loop hloop =>
      cases hloop
      exact ht.flushes _ _ .takeLocal
  | @drain slot loop task rest hq =>
    -- a deque with a task is not flushed for being empty, so it is one of the loop's core
    have hcore : p.coreOf loop.deque = some loop.core := by
      let t₀ : PoolThread κ H := ⟨slot, .drain loop⟩
      have hflush : t₀.Flushing loop.core loop.deque := .loop rfl
      rcases ht.flushes _ _ hflush with hk | hnil
      · exact hk
      · rw [hq] at hnil
        cases hnil
    have hslot : slot = none := hs rfl
    subst hslot
    refine ⟨fun j x hx => ?_, nofun, fun j d hflush => ?_⟩
    · cases hx
      exact ⟨hp.deque _ _ hcore task (by simp [hq]), nofun⟩
    · cases hflush with
      | loop hloop =>
        cases hloop
        exact .inl hcore
  | @drainEnd _ loop =>
    refine atHome_of_restful ?_
    unfold Drain.exit
    cases loop.after <;> rfl
  | @findNext _ w pc pc' _ _ _ _ _ _ _ hpc' =>
    obtain ⟨hserves, hleft⟩ := ht.finds w pc rfl
    refine ⟨nofun, fun w' pc'' heq => ?_, fun j d hflush => unflushed rfl hflush⟩
    cases heq
    refine ⟨h'.servesOnly htag hserves, fun d hd => h'.coreOf htag (hleft d ?_)⟩
    rcases hpc' with rfl | rfl
    · exact pc.left_onEmpty hd
    · exact pc.left_onRetry hd
  | @findStart _ w =>
    refine ⟨nofun, fun w' pc heq => ?_, fun j d hflush => unflushed rfl hflush⟩
    cases heq
    refine ⟨(ht.finds w _ rfl).1, fun d hd => ?_⟩
    obtain ⟨e, he, rfl⟩ := List.mem_map.1 hd
    rw [List.mem_rotate, htag.cache] at he
    exact Option.map_eq_some_iff.2 ⟨_, htag.workers w.core e he, rfl⟩
  | @findSkip _ w peer rest =>
    obtain ⟨hserves, hleft⟩ := ht.finds w _ rfl
    refine ⟨nofun, fun w' pc heq => ?_, fun j d hflush => unflushed rfl hflush⟩
    cases heq
    exact ⟨hserves, fun d hd => hleft d (List.mem_cons_of_mem _ hd)⟩
  | _ => exact atHome_of_restful rfl

end PoolTrans

section
variable [Fintype ι]

/-- The tasks are in the queues of their core, and what the threads have under way keeps them there,
in every state reached under the guard. -/
theorem reachable_home (h : (poolMachine κ H ι).Reachable (staysHome home) c) :
    c.shared.Home home ∧ ∀ j, (c.loc j).AtHome home c.shared := by
  refine pool_invariant (J := (poolMachine κ H ι).Reachable (staysHome home))
    (I := fun c => c.shared.Home home ∧ ∀ j, (c.loc j).AtHome home c.shared) h (fun _ h => h) ?_ ?_
  · exact ⟨⟨nofun, nofun, nofun⟩, fun _ => PoolTrans.atHome_of_restful rfl⟩
  · rintro c i a p' _ t' hr ⟨hp, hthreads⟩ ⟨-, ha⟩ rfl ht
    have htag := (reachable_tagged hr).1
    refine ⟨ht.keepsHome (reachable_dequesLive hr) hp (hthreads i) ha, fun j => ?_⟩
    by_cases hj : j = i
    · subst hj
      simpa using ht.atHome_own htag (reachable_slotEmptied hr j) hp (hthreads j) ha
    · have hheld : ∀ d ∈ (c.loc j).held, d ∉ (c.loc i).slot.held := fun d hd hmem =>
        hj (held_unique hr hd (Multiset.mem_add.2 (.inl hmem)))
      simpa [Function.update_of_ne hj] using ht.atHome_other htag (hthreads j) hheld

/-! ## The result -/

/-- Every task is with the core it was spawned through. -/
structure TasksAtHome (home : H → κ) (c : PoolConfig κ H ι) : Prop where
  injector : ∀ k, ∀ task ∈ (c.shared.core k).injector, home task = k
  /-- A task in a deque is in one of a worker registered with its core, or a thread is in the middle
  of flushing the deque to the injector of its core. -/
  deque : ∀ d, ∀ task ∈ c.shared.deque d,
    (∃ id, ⟨id, d⟩ ∈ (c.shared.core (home task)).registry.stealersCache) ∨
      ∃ i, (c.loc i).Flushing (home task) d
  /-- A task that a thread is about to push goes to its core. -/
  pushed : ∀ i k task, (c.loc i).pc.pushes = some (k, task) → home task = k
  /-- A task is executed by the workers of its core. -/
  returned : ∀ k task, (k, task) ∈ c.shared.returned → home task = k

/-- A task stays with the core it was spawned through, under every interleaving of the operations of
any number of cores, if each operation of a core begins on a thread without a local deque of another
core, and no other thread has the local deque of a worker that is registered or deregistered. -/
theorem stays_home (h : (poolMachine κ H ι).Reachable (staysHome home) c) :
    TasksAtHome home c := by
  obtain ⟨hp, hthreads⟩ := reachable_home h
  have htag := (reachable_tagged h).1
  refine ⟨hp.injector, fun d task htask => ?_, fun i k task hpush => ?_, fun k task hret => ?_⟩
  · have hne : c.shared.deque d ≠ [] := List.ne_nil_of_mem htask
    rcases (queues_reachable (h.mono fun _ _ hG => hG.1)).queued d hne with
      ⟨k, e, he, rfl⟩ | ⟨i, hflush⟩
    · have hworker : e ∈ (c.shared.core k).registry.workers := htag.cache k ▸ he
      have hcore : c.shared.coreOf e.stealer = some k :=
        Option.map_eq_some_iff.2 ⟨_, htag.workers k e hworker, rfl⟩
      have hk := hp.deque _ k hcore task htask
      exact .inl ⟨e.id, hk ▸ he⟩
    · obtain ⟨k, hk⟩ : ∃ k, (c.loc i).Flushing k d := by
        rcases hflush with ⟨loop, hloop, rfl⟩ | ⟨g, hpc, hslot⟩
        · exact ⟨_, .loop hloop⟩
        · have ht : c.loc i = ⟨some (g.id, d), .takeLocal g⟩ := by rw [← hpc, ← hslot]
          exact ⟨g.core, ht ▸ .takeLocal⟩
      rcases (hthreads i).flushes k d hk with hcore | hnil
      · exact .inr ⟨i, hp.deque d k hcore task htask ▸ hk⟩
      · exact absurd (List.isEmpty_iff.1 hnil) hne
  · exact ((hthreads i).pushes k task hpush).1
  · exact hp.returned (k, task) hret

instance (p : Pool κ H) (slot : Slot) (k : κ) : Decidable (p.ServesOnly slot k) :=
  inferInstanceAs (Decidable (∀ owned ∈ slot, _))

instance (p : Pool κ H) (k : κ) (d : DequeId) : Decidable (p.Flushable k d) :=
  inferInstanceAs (Decidable (_ ∨ _))

instance (p : Pool κ H) (k : κ) : ∀ source : Source κ, Decidable (source.Of p k)
  | .injector j => inferInstanceAs (Decidable (j = k))
  | .local => inferInstanceAs (Decidable True)
  | .stealer _ => inferInstanceAs (Decidable (_ = some k))

instance (home : H → κ) (p : Pool κ H) (slot : Slot) :
    ∀ a : PoolLabel κ H, Decidable (a.KeepsHome home p slot)
  | .inject _ _ | .handOff _ _ => inferInstanceAs (Decidable (_ ∧ _))
  | .tryPushLocal task => inferInstanceAs (Decidable (p.ServesOnly slot (home task)))
  | .fetch _ _ _ => inferInstanceAs (Decidable (_ ∧ _))
  | .findTask w => inferInstanceAs (Decidable (p.ServesOnly slot w.core))
  | .newWorker _ | .dropGuard _ => inferInstanceAs (Decidable (∀ owned ∈ slot, _))
  | .shutdown _ | .go | .attempt _ | .start _ => inferInstanceAs (Decidable True)

instance (c : PoolConfig κ H ι) (a : ι × PoolLabel κ H) : Decidable (staysHome home c a) :=
  inferInstanceAs (Decidable (_ ∧ _))

end

/-- The core that the tasks below are spawned through. -/
def parity (task : ℕ) : Bool := task % 2 == 1

/-- A thread that works for the core `true`, then for `false`, and a thread that takes a task it
left behind. -/
def twoHomesRun : List (Bool × PoolLabel Bool ℕ) :=
  [(false, .newWorker true), (false, .go), (false, .go), (false, .go), (false, .handOff true 7),
    (false, .handOff true 9), (false, .dropGuard ⟨true, 1, 0⟩)] ++
  List.replicate 8 (false, .go) ++
  [(false, .newWorker false), (false, .go), (false, .go), (false, .go), (false, .handOff false 8),
    (true, .fetch true (.injector true) (.batch 0))]

/-- In that run the first core gets its tasks back before the thread works for the other. -/
theorem stays_home_two_homes :
    ∃ c, (poolMachine Bool ℕ Bool).runIf (staysHome parity) (poolMachine Bool ℕ Bool).init
        twoHomesRun = some c ∧
      (c.shared.core true).injector = [9] ∧ c.shared.deque 1 = [8] ∧ TasksAtHome parity c :=
  ⟨_, rfl, rfl, rfl, stays_home (Machine.reach_of_runIf twoHomesRun rfl)⟩

/-- A thread that is a worker of the core `true` and spawns a task through `false`. -/
def spawnElsewhereRun : List (Bool × PoolLabel Bool ℕ) :=
  [(false, .newWorker true), (false, .go), (false, .go), (false, .go), (false, .inject false 8),
    (false, .go), (false, .shutdown true)]

/-- After that run the task is in a deque that only the workers of the other core serve, which is
stopped. -/
theorem spawned_into_other_core :
    ∃ c, (poolMachine Bool ℕ Bool).run (poolMachine Bool ℕ Bool).init spawnElsewhereRun =
        some c ∧
      (∀ i, (c.loc i).pc = .idle) ∧ c.shared.deque 0 = [8] ∧
      (c.shared.core false).registry.stealersCache = [] ∧ (c.shared.core true).running = false ∧
      ¬ TasksAtHome parity c := by
  refine ⟨_, rfl, by decide, rfl, rfl, rfl, fun hhome => ?_⟩
  rcases hhome.deque 0 8 (List.mem_singleton_self 8) with ⟨id, hid⟩ | ⟨i, hflush⟩
  · cases hid
  · cases i with
    | false => exact absurd hflush.flushes Bool.false_ne_true
    | true => exact absurd hflush.flushes Bool.false_ne_true

end Hypertile
