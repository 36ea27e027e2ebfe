import Hypertile.Registry.Core

/-!
# The registry is consistent

Whenever no lock of the registry is held, the idle stack has no duplicates, the counter is its
length, the cached list is that of the workers, and every idle worker is registered
(`registry_consistent`). A thread that holds a lock owes the rest: the counter what it has still to
add, the cache its rebuilding, the idle stack the removal of the worker that it deregisters.

That an idle worker is registered rests on its callers: a worker is marked as idle only between its
`register` and its `deregister`. `unpark_one_idle` looks for another worker only where the one that
it has popped was deregistered in the meantime, and each worker is that only once.
-/

namespace Hypertile

open Machine Machine.Threads

variable {ι : Type}

/-! ## What the threads owe -/

namespace RegistryPc

/-- The thread holds the lock of `workers` for writing. -/
def holdsWorkers : RegistryPc → Bool
  | .insertCache _ | .removeCache _ | .removeIdle _ | .removeCount .. => true
  | _ => false

/-- The thread holds the lock of `idle_stack`. -/
def holdsIdle : RegistryPc → Bool
  | .removeCount .. | .markCount _ | .unmarkCount _ | .popCount _ => true
  | _ => false

/-- The thread has changed the workers, and not yet rebuilt the cache. -/
def stale : RegistryPc → Bool
  | .insertCache _ | .removeCache _ => true
  | _ => false

/-- The thread has removed the worker, and not yet taken it off the idle stack. -/
def removes (id : WorkerId) : RegistryPc → Bool
  | .removeCache id' | .removeIdle id' => id' = id
  | _ => false

/-- The thread is in `mark_idle` of the worker. -/
def marks (id : WorkerId) : RegistryPc → Bool
  | .mark id' | .markCount id' => id' = id
  | _ => false

/-- What the thread has still to add to the counter. -/
def owes : RegistryPc → ℤ
  | .removeCount _ removed | .unmarkCount removed => -removed
  | .markCount _ => 1
  | .popCount _ => -1
  | _ => 0

/-- A thread that does not hold the lock of `idle_stack` owes the counter nothing. -/
theorem owes_eq_zero {m : RegistryPc} (h : m.holdsIdle = false) : m.owes = 0 := by
  cases m with
  | removeCount | markCount | unmarkCount | popCount => cases h
  | _ => rfl

/-- The thread is in `unpark_one_idle`. -/
def unparks : RegistryPc → Bool
  | .load | .pop | .popCount _ | .lookup _ | .unparkReturn _ => true
  | _ => false

/-- An upper bound of the steps that a call of `unpark_one_idle` has still to take if it finds the
worker that it has popped or pops next. -/
def rank : RegistryPc → ℕ
  | .load => 5
  | .pop => 4
  | .popCount _ => 3
  | .lookup _ => 2
  | .unparkReturn _ => 1
  | _ => 0

end RegistryPc

namespace RegistryShared

/-- The worker is registered. -/
def Registered (s : RegistryShared ι) (id : WorkerId) : Prop :=
  ∃ entry ∈ s.registry.workers, entry.id = id

/-- What a lookup finds is the entry of a registered worker. -/
theorem getWorker_some {s : RegistryShared ι} {id : WorkerId} {entry : WorkerEntry}
    (h : s.getWorker id = some entry) : entry ∈ s.registry.workers ∧ entry.id = id :=
  ⟨List.mem_of_find?_eq_some h, by simpa using List.find?_some h⟩

/-- What a lookup does not find is not registered. -/
theorem not_registered {s : RegistryShared ι} {id : WorkerId} (h : s.getWorker id = none) :
    ¬ s.Registered id := by
  rintro ⟨entry, hmem, hid⟩
  have := List.find?_eq_none.1 h entry hmem
  simp [hid] at this

/-- What a removal leaves of the stack. -/
theorem mem_retain {s : RegistryShared ι} {id id' : WorkerId} :
    id' ∈ s.retain id ↔ id' ∈ s.idleStack ∧ id' ≠ id := by
  simp [retain]

/-- A removal is counted. -/
theorem length_retain (s : RegistryShared ι) (id : WorkerId) :
    ((s.retain id).length : ℤ) = s.idleStack.length - s.removed id := by
  have hle : (s.retain id).length ≤ s.idleStack.length := List.length_filter_le ..
  rw [removed]
  omega

end RegistryShared

section
variable [DecidableEq ι] {i : ι} {s s' : RegistryShared ι} {m m' : RegistryPc} {a : RegistryAct}

/-! ## The steps -/

/-- The lock of `workers`: a step takes it where it is free, and gives it up. -/
theorem RegistryCallTrans.writing (h : RegistryCallTrans i s m a s' m')
    (hl : m.holdsWorkers = true → s.writing = true) :
    (m'.holdsWorkers = true → s'.writing = true ∧ (m.holdsWorkers = true ∨ s.writing = false)) ∧
      (m.holdsWorkers = true → m'.holdsWorkers = false → s'.writing = false) ∧
      (m.holdsWorkers = false → m'.holdsWorkers = false → s'.writing = s.writing) := by
  cases h with
  | insert hfree | remove hfree => exact ⟨fun _ => ⟨rfl, .inr hfree⟩, nofun, nofun⟩
  | insertCache | removeCount => exact ⟨nofun, fun _ _ => rfl, nofun⟩
  | removeCache | removeIdle => exact ⟨fun _ => ⟨hl rfl, .inl rfl⟩, nofun, nofun⟩
  | _ => exact ⟨nofun, nofun, fun _ _ => rfl⟩

/-- The lock of `idle_stack`. -/
theorem RegistryCallTrans.idleLocked (h : RegistryCallTrans i s m a s' m') :
    (m'.holdsIdle = true → s'.idleLocked = true ∧ (m.holdsIdle = true ∨ s.idleLocked = false)) ∧
      (m.holdsIdle = true → m'.holdsIdle = false → s'.idleLocked = false) ∧
      (m.holdsIdle = false → m'.holdsIdle = false → s'.idleLocked = s.idleLocked) := by
  cases h with
  | removeIdle hfree | mark hfree | unmark hfree | pop hfree =>
    exact ⟨fun _ => ⟨rfl, .inr hfree⟩, nofun, nofun⟩
  | removeCount | markCount | unmarkCount | popCount => exact ⟨nofun, fun _ _ => rfl, nofun⟩
  | _ => exact ⟨nofun, nofun, fun _ _ => rfl⟩

/-- The stack and the counter change under the lock of `idle_stack`. -/
theorem RegistryCallTrans.stack (h : RegistryCallTrans i s m a s' m') :
    s.idleLocked = false ∨ m.holdsIdle = true ∨
      s'.idleStack = s.idleStack ∧ s'.idleCount = s.idleCount := by
  cases h with
  | removeIdle hfree | mark hfree | unmark hfree | pop hfree | marked hfree | popNone hfree =>
    exact .inl hfree
  | removeCount | markCount | unmarkCount | popCount => exact .inr (.inl rfl)
  | _ => exact .inr (.inr ⟨rfl, rfl⟩)

/-- The counter and what the thread owes keep up with the stack, where the thread comes to hold the
lock, gives it up, or leaves it free. -/
theorem RegistryCallTrans.counted (h : RegistryCallTrans i s m a s' m')
    (hfree : s.idleLocked = false → s.idleCount = s.idleStack.length)
    (hheld : m.holdsIdle = true → s.idleCount + m.owes = s.idleStack.length)
    (hm : m'.holdsIdle = true ∨ s'.idleLocked = false) :
    s'.idleCount + m'.owes = s'.idleStack.length := by
  cases h with
  | @removeIdle id hf | @unmark id hf =>
    have := hfree hf
    simp only [RegistryPc.owes, s.length_retain id]
    omega
  | mark hf =>
    have := hfree hf
    simp only [RegistryPc.owes, List.length_cons]
    omega
  | pop hf hstack =>
    have := hfree hf
    simp only [RegistryPc.owes, hstack, List.length_cons] at this ⊢
    omega
  | removeCount | markCount | unmarkCount | popCount =>
    have := hheld rfl
    simp only [RegistryPc.owes] at this ⊢
    omega
  | _ => exact (add_zero _).trans (hfree (hm.resolve_left nofun))

/-- The stack has no duplicates. -/
theorem RegistryCallTrans.nodup (h : RegistryCallTrans i s m a s' m') (hn : s.idleStack.Nodup) :
    s'.idleStack.Nodup := by
  cases h with
  | removeIdle | unmark => exact hn.filter _
  | mark _ hmem => exact List.nodup_cons.2 ⟨hmem, hn⟩
  | pop _ hstack =>
    rw [hstack] at hn
    exact (List.nodup_cons.1 hn).2
  | _ => exact hn

/-- A worker comes to the stack by `mark_idle`. -/
theorem RegistryCallTrans.mem_stack (h : RegistryCallTrans i s m a s' m') {id : WorkerId}
    (hid : id ∈ s'.idleStack) : id ∈ s.idleStack ∨ m = .mark id := by
  cases h with
  | removeIdle | unmark => exact .inl (RegistryShared.mem_retain.1 hid).1
  | mark => exact (List.mem_cons.1 hid).symm.imp_right fun he => by rw [he]
  | pop _ hstack =>
    rw [hstack]
    exact .inl (.tail _ hid)
  | _ => exact .inl hid

/-- The ids of the workers are distinct. -/
theorem RegistryCallTrans.ids (h : RegistryCallTrans i s m a s' m')
    (hn : (s.registry.workers.map WorkerEntry.id).Nodup) :
    (s'.registry.workers.map WorkerEntry.id).Nodup := by
  have hfilter : ∀ id, ((s.registry.workers.filter (·.id ≠ id)).map WorkerEntry.id).Nodup :=
    fun id => hn.sublist (List.filter_sublist.map _)
  cases h with
  | @insert entry =>
    refine List.nodup_cons.2 ⟨?_, hfilter entry.id⟩
    simp
  | remove => exact hfilter _
  | _ => exact hn

/-- A registered worker stays so until it is removed. -/
theorem RegistryCallTrans.registered (h : RegistryCallTrans i s m a s' m') {id : WorkerId}
    (hr : s.Registered id) : s'.Registered id ∨ m = .remove id ∧ s.writing = false := by
  obtain ⟨entry, hmem, hid⟩ := hr
  cases h with
  | @insert entry' =>
    left
    by_cases he : entry'.id = id
    · exact ⟨entry', .head _, he⟩
    · refine ⟨entry, .tail _ (List.mem_filter.2 ⟨hmem, ?_⟩), hid⟩
      simpa [hid] using Ne.symm he
  | @remove id' hfree =>
    by_cases he : id' = id
    · subst he
      exact .inr ⟨rfl, hfree⟩
    · refine .inl ⟨entry, List.mem_filter.2 ⟨hmem, ?_⟩, hid⟩
      simpa [hid] using Ne.symm he
  | _ => exact .inl ⟨entry, hmem, hid⟩

/-- The cache is that of the workers, or they were changed by a thread that has still to rebuild it.
-/
theorem RegistryCallTrans.cache (h : RegistryCallTrans i s m a s' m')
    (hc : m.stale = false → s.registry.stealersCache = s.registry.workers)
    (hm' : m'.stale = false) : s'.registry.stealersCache = s'.registry.workers := by
  cases h with
  | insertCache | removeCache => rfl
  | insert | remove => cases hm'
  | _ => exact hc rfl

/-- What only grows. -/
theorem RegistryCallTrans.grows (h : RegistryCallTrans i s m a s' m') :
    (∀ id ∈ s.live, id ∈ s'.live) ∧ (∀ id ∈ s.closed, id ∈ s'.closed) := by
  cases h with
  | deregister => exact ⟨fun _ hid => hid, fun _ hid => .tail _ hid⟩
  | insertCache => exact ⟨fun _ hid => .tail _ hid, fun _ hid => hid⟩
  | _ => exact ⟨fun _ hid => hid, fun _ hid => hid⟩

/-- A worker whose `register` returns is registered by this thread. -/
theorem RegistryCallTrans.live_of (h : RegistryCallTrans i s m a s' m') {id : WorkerId}
    (hid : id ∈ s'.live) : id ∈ s.live ∨ ∃ entry, m = .insertCache entry ∧ entry.id = id := by
  cases h with
  | @insertCache entry =>
    exact (List.mem_cons.1 hid).symm.imp_right fun he => ⟨entry, rfl, he.symm⟩
  | _ => exact .inl hid

/-- The ids of deregistered workers grow by the calls of `deregister`. -/
theorem RegistryCallTrans.closed_of (h : RegistryCallTrans i s m a s' m') {id : WorkerId}
    (hid : id ∈ s'.closed) : id ∈ s.closed ∨ a = .deregister id := by
  cases h with
  | deregister => exact (List.mem_cons.1 hid).symm.imp_right fun he => by rw [he]
  | _ => exact .inl hid

/-- A thread that has removed a worker goes on to take it off the stack. -/
theorem RegistryCallTrans.removes (h : RegistryCallTrans i s m a s' m') {id : WorkerId}
    (hm : m.removes id = true ∨ m = .remove id ∧ s.writing = false) (hid : id ∈ s'.idleStack) :
    m'.removes id = true := by
  cases h with
  | remove =>
    rcases hm with hm | ⟨hm, -⟩
    · cases hm
    · cases hm
      simp [RegistryPc.removes]
  | removeCache => exact hm.resolve_right nofun
  | removeIdle =>
    rcases hm with hm | ⟨hm, -⟩
    · exact absurd (of_decide_eq_true hm).symm (RegistryShared.mem_retain.1 hid).2
    · cases hm
  | insert => rcases hm with hm | ⟨hm, -⟩ <;> cases hm
  | _ => rcases hm with hm | ⟨hm, -⟩ <;> cases hm

/-- A thread misses a worker that is not registered. -/
theorem RegistryCallTrans.missed_of (h : RegistryCallTrans i s m a s' m') :
    s'.missed i = s.missed i ∨ ∃ id, m = .lookup id ∧ s.writing = false ∧ ¬ s.Registered id ∧
      s'.missed i = id :: s.missed i ∧ s'.idleStack = s.idleStack := by
  cases h with
  | miss hfree hget =>
    exact .inr ⟨_, rfl, hfree, RegistryShared.not_registered hget, Function.update_self .., rfl⟩
  | _ => exact .inl rfl

/-- What is recorded of the other threads. -/
theorem RegistryCallTrans.others (h : RegistryCallTrans i s m a s' m') {j : ι} (hj : j ≠ i) :
    s'.popped j = s.popped j ∧ s'.missed j = s.missed j := by
  cases h with
  | unparkOneIdle | pop => exact ⟨Function.update_of_ne hj .., rfl⟩
  | miss => exact ⟨rfl, Function.update_of_ne hj ..⟩
  | _ => exact ⟨rfl, rfl⟩

end

/-! ## All runs -/

section

/-- The callers keep to the rule that a worker is marked as idle only when its `register` has
returned and its `deregister` has not been called: `mark_idle` is called then, and no `deregister`
while it goes on. -/
def marksRegistered (c : RegistryConfig ι) (a : ι × RegistryAct) : Prop :=
  (∀ id, a.2 = .markIdle id → id ∈ c.shared.live ∧ id ∉ c.shared.closed) ∧
    ∀ id, a.2 = .deregister id → ∀ j, (c.loc j).marks id = false

/-- What a thread knows where it stands. -/
def RegistryPc.Sound (i : ι) (s : RegistryShared ι) : RegistryPc → Prop
  | .insertCache entry => s.Registered entry.id
  | .remove id | .removeCache id | .removeIdle id | .removeCount id _ => id ∈ s.closed
  | .mark id => id ∈ s.live ∧ id ∉ s.closed
  | .markCount id => (id ∈ s.live ∧ id ∉ s.closed) ∧ id ∈ s.idleStack
  | .popCount id | .lookup id => (s.Registered id ∨ id ∈ s.closed) ∧ s.popped i = some id ∧
      id ∉ s.missed i
  | _ => True

/-- What holds of every run in which the callers keep to the rule. -/
structure RegistryInv (c : RegistryConfig ι) : Prop where
  writing : Mutex c.shared.writing RegistryPc.holdsWorkers c.loc
  written : c.shared.writing = true → ∃ i, (c.loc i).holdsWorkers = true
  locked : Mutex c.shared.idleLocked RegistryPc.holdsIdle c.loc
  held : c.shared.idleLocked = true → ∃ i, (c.loc i).holdsIdle = true
  counted : c.shared.idleLocked = false → c.shared.idleCount = c.shared.idleStack.length
  counting : ∀ i, (c.loc i).holdsIdle = true →
    c.shared.idleCount + (c.loc i).owes = c.shared.idleStack.length
  nodup : c.shared.idleStack.Nodup
  ids : (c.shared.registry.workers.map WorkerEntry.id).Nodup
  cache : (∀ i, (c.loc i).stale = false) →
    c.shared.registry.stealersCache = c.shared.registry.workers
  idle : ∀ id ∈ c.shared.idleStack, c.shared.Registered id ∨ ∃ i, (c.loc i).removes id = true
  live : ∀ id ∈ c.shared.live, c.shared.Registered id ∨ id ∈ c.shared.closed
  missed : ∀ i, (c.shared.missed i).Nodup ∧
    ∀ id ∈ c.shared.missed i, id ∈ c.shared.closed ∧ id ∉ c.shared.idleStack
  threads : ∀ i, (c.loc i).Sound i c.shared

variable [DecidableEq ι] {c c' : RegistryConfig ι} {i : ι} {s' : RegistryShared ι} {m' : RegistryPc}
  {a : RegistryAct}

omit [DecidableEq ι] in
/-- The invariant holds at the start. -/
theorem RegistryInv.init : RegistryInv (⟨.new, fun _ => .idle⟩ : RegistryConfig ι) where
  writing := .free fun _ => rfl
  written := nofun
  locked := .free fun _ => rfl
  held := nofun
  counted _ := rfl
  counting _ := nofun
  nodup := .nil
  ids := .nil
  cache _ := rfl
  idle := nofun
  live := nofun
  missed _ := ⟨.nil, nofun⟩
  threads _ := trivial

omit [DecidableEq ι] in
/-- A worker that is not registered is not on the stack, where no thread changes the workers. -/
theorem RegistryInv.not_idle (hI : RegistryInv c) (hfree : c.shared.writing = false)
    {id : WorkerId} (hr : ¬ c.shared.Registered id) : id ∉ c.shared.idleStack := by
  intro hid
  obtain ⟨j, hj⟩ := (hI.idle id hid).resolve_left hr
  have hholds : (c.loc j).holdsWorkers = true := by
    cases hloc : c.loc j with
    | removeCache | removeIdle => rfl
    | _ =>
      rw [hloc] at hj
      cases hj
  rw [hI.writing.locked_of_holds hholds] at hfree
  cases hfree

/-- What the thread that moves knows after its step. -/
theorem RegistryInv.own (hI : RegistryInv c) (h : RegistryCallTrans i c.shared (c.loc i) a s' m')
    (hrule : ∀ id, a = .markIdle id → id ∈ c.shared.live ∧ id ∉ c.shared.closed) :
    m'.Sound i s' := by
  have hsound := hI.threads i
  generalize c.loc i = m at h hsound
  cases h with
  | @insert entry => exact ⟨entry, .head _, rfl⟩
  | deregister => exact .head _
  | remove | removeCache | removeIdle => exact hsound
  | markIdle => exact hrule _ rfl
  | mark => exact ⟨hsound, .head _⟩
  | @pop id rest hfree hstack =>
    have hmem : id ∈ c.shared.idleStack := by simp [hstack]
    refine ⟨?_, Function.update_self .., fun hmissed => ((hI.missed i).2 id hmissed).2 hmem⟩
    refine (hI.idle id hmem).imp_right ?_
    rintro ⟨j, hj⟩
    have hknows := hI.threads j
    cases hloc : c.loc j with
    | removeCache | removeIdle =>
      rw [hloc] at hj hknows
      have hid := of_decide_eq_true hj
      subst hid
      exact hknows
    | _ =>
      rw [hloc] at hj
      cases hj
  | popCount => exact hsound
  | _ => trivial

/-- What another thread knows after the step. -/
theorem RegistryInv.other (hI : RegistryInv c) (h : RegistryCallTrans i c.shared (c.loc i) a s' m')
    (hrule : ∀ id, a = .deregister id → ∀ j, (c.loc j).marks id = false) {j : ι} (hj : j ≠ i) :
    (c.loc j).Sound j s' := by
  have hsound := hI.threads j
  obtain ⟨hlive, hclosed⟩ := h.grows
  obtain ⟨hpopped, hmissed⟩ := h.others hj
  -- a worker that was registered still is, or it was deregistered
  have hcarry : ∀ id, c.shared.Registered id ∨ id ∈ c.shared.closed →
      s'.Registered id ∨ id ∈ s'.closed := by
    rintro id (hr | hc)
    · refine (h.registered hr).imp_right ?_
      rintro ⟨hm, -⟩
      have hremove := hI.threads i
      rw [hm] at hremove
      exact hclosed id hremove
    · exact .inr (hclosed id hc)
  have hmarks : ∀ id, (c.loc j).marks id = true →
      id ∈ c.shared.live ∧ id ∉ c.shared.closed → id ∈ s'.live ∧ id ∉ s'.closed := by
    rintro id hm ⟨hin, hout⟩
    refine ⟨hlive id hin, fun hid => ?_⟩
    have ha := (h.closed_of hid).resolve_left hout
    rw [hrule id ha j] at hm
    cases hm
  cases hloc : c.loc j with
  | insertCache entry =>
    rw [hloc] at hsound
    refine (h.registered hsound).resolve_right ?_
    rintro ⟨-, hfree⟩
    have hwriting : c.shared.writing = true :=
      hI.writing.locked_of_holds (i := j) (by rw [hloc]; rfl)
    rw [hfree] at hwriting
    cases hwriting
  | remove | removeCache | removeIdle | removeCount =>
    rw [hloc] at hsound
    exact hclosed _ hsound
  | mark id =>
    rw [hloc] at hsound
    exact hmarks id (by simp [hloc, RegistryPc.marks]) hsound
  | markCount id =>
    rw [hloc] at hsound
    refine ⟨hmarks id (by simp [hloc, RegistryPc.marks]) hsound.1, ?_⟩
    have hholds : (c.loc j).holdsIdle = true := by rw [hloc]; rfl
    rcases h.stack with hfree | hi | ⟨hstack, -⟩
    · rw [hI.locked.locked_of_holds hholds] at hfree
      cases hfree
    · exact absurd (hI.locked.unique hholds hi) hj
    · rw [hstack]
      exact hsound.2
  | popCount id | lookup id =>
    rw [hloc] at hsound
    obtain ⟨hin, hp, hm⟩ := hsound
    refine ⟨hcarry id hin, hpopped.trans hp, ?_⟩
    rwa [hmissed]
  | _ => trivial

/-- A step that keeps to the rule keeps the invariant. -/
theorem RegistryInv.step {a : ι × RegistryAct} (hI : RegistryInv c) (hrule : marksRegistered c a)
    (hst : (registryMachine ι).step c a = some c') : RegistryInv c' := by
  obtain ⟨i, a⟩ := a
  obtain ⟨s', m', hp, rfl⟩ := step_iff.1 hst
  have h : RegistryCallTrans i c.shared (c.loc i) a s' m' := registryStep_trans hp
  obtain ⟨hmark, hderegister⟩ := hrule
  have hwriting := h.writing hI.writing.locked_of_holds
  have hlocked := h.idleLocked
  have hself : Function.update c.loc i m' i = m' := Function.update_self ..
  have hother : ∀ {j}, j ≠ i → Function.update c.loc i m' j = c.loc j :=
    fun hj => Function.update_of_ne hj ..
  refine ⟨hI.writing.step hwriting.1 hwriting.2.2, held_step hI.written hwriting.2.1 hwriting.2.2,
    hI.locked.step hlocked.1 hlocked.2.2, held_step hI.held hlocked.2.1 hlocked.2.2, fun hfree => ?_,
    fun j hj => ?_, h.nodup hI.nodup, h.ids hI.ids, fun hstale => ?_, fun id hid => ?_,
    fun id hid => ?_, fun j => ?_, fun j => ?_⟩
  · have hidle : m'.holdsIdle = false := by
      refine Bool.eq_false_iff.2 fun hm => ?_
      rw [(hlocked.1 hm).1] at hfree
      cases hfree
    have hcount := h.counted hI.counted (hI.counting i) (.inr hfree)
    rwa [RegistryPc.owes_eq_zero hidle, add_zero] at hcount
  · change s'.idleCount + (Function.update c.loc i m' j).owes = s'.idleStack.length
    change (Function.update c.loc i m' j).holdsIdle = true at hj
    by_cases hji : j = i
    · subst hji
      rw [hself] at hj ⊢
      exact h.counted hI.counted (hI.counting j) (.inl hj)
    · rw [hother hji] at hj ⊢
      rcases h.stack with hfree | hi | ⟨hstack, hcount⟩
      · rw [hI.locked.locked_of_holds hj] at hfree
        cases hfree
      · exact absurd (hI.locked.unique hj hi) hji
      · rw [hstack, hcount]
        exact hI.counting j hj
  · refine h.cache (fun hm => hI.cache fun j => ?_) ?_
    · by_cases hji : j = i
      · rw [hji, hm]
      · have hj := hstale j
        change (Function.update c.loc i m' j).stale = false at hj
        rwa [hother hji] at hj
    · have hi := hstale i
      change (Function.update c.loc i m' i).stale = false at hi
      rwa [hself] at hi
  · change id ∈ s'.idleStack at hid
    have hself' : m'.removes id = true → ∃ j, (Function.update c.loc i m' j).removes id = true :=
      fun hm => ⟨i, by rwa [hself]⟩
    have hkept : c.shared.Registered id →
        s'.Registered id ∨ ∃ j, (Function.update c.loc i m' j).removes id = true := fun hr =>
      (h.registered hr).imp_right fun hm => hself' (h.removes (.inr hm) hid)
    rcases h.mem_stack hid with hid' | hm
    · rcases hI.idle id hid' with hr | ⟨j, hj⟩
      · exact hkept hr
      · by_cases hji : j = i
        · subst hji
          exact .inr (hself' (h.removes (.inl hj) hid))
        · exact .inr ⟨j, (congrArg (RegistryPc.removes id) (hother hji)).trans hj⟩
    · have hsound := hI.threads i
      rw [hm] at hsound
      exact hkept ((hI.live id hsound.1).resolve_right hsound.2)
  · change id ∈ s'.live at hid
    have hkept : c.shared.Registered id → s'.Registered id ∨ id ∈ s'.closed := by
      intro hr
      refine (h.registered hr).imp_right ?_
      rintro ⟨hm, -⟩
      have hsound := hI.threads i
      rw [hm] at hsound
      exact h.grows.2 id hsound
    rcases h.live_of hid with hid' | ⟨entry, hm, rfl⟩
    · rcases hI.live id hid' with hr | hclosed
      · exact hkept hr
      · exact .inr (h.grows.2 id hclosed)
    · have hsound := hI.threads i
      rw [hm] at hsound
      exact hkept hsound
  · obtain ⟨hnodup, hout⟩ := hI.missed j
    have hkept : ∀ id ∈ c.shared.missed j, id ∈ s'.closed ∧ id ∉ s'.idleStack := by
      intro id hid
      obtain ⟨hclosed, hoff⟩ := hout id hid
      refine ⟨h.grows.2 id hclosed, fun hin => ?_⟩
      have hm := (h.mem_stack hin).resolve_left hoff
      have hsound := hI.threads i
      rw [hm] at hsound
      exact hsound.2 hclosed
    change (s'.missed j).Nodup ∧ ∀ id ∈ s'.missed j, id ∈ s'.closed ∧ id ∉ s'.idleStack
    by_cases hji : j = i
    · subst hji
      rcases h.missed_of with hsame | ⟨id, hm, hfree, hr, hnew, hstack⟩
      · rw [hsame]
        exact ⟨hnodup, hkept⟩
      · have hsound := hI.threads j
        rw [hm] at hsound
        obtain ⟨hin, -, hnot⟩ := hsound
        rw [hnew]
        refine ⟨List.nodup_cons.2 ⟨hnot, hnodup⟩, fun id' hid' => ?_⟩
        rcases List.mem_cons.1 hid' with rfl | hid'
        · exact ⟨h.grows.2 _ (hin.resolve_left hr), hstack ▸ hI.not_idle hfree hr⟩
        · exact hkept id' hid'
    · rw [(h.others hji).2]
      exact ⟨hnodup, hkept⟩
  · change (Function.update c.loc i m' j).Sound j s'
    by_cases hji : j = i
    · subst hji
      rw [hself]
      exact hI.own h hmark
    · rw [hother hji]
      exact hI.other h hderegister hji

/-- A run in which the callers keep to the rule keeps the invariant. -/
theorem reachable_registryInv (h : (registryMachine ι).Reachable marksRegistered c) :
    RegistryInv c := by
  refine h.invariant .init ?_
  intro _ _ _ hI hrule hst
  exact hI.step hrule hst

omit [DecidableEq ι] in
/-- The counter is never negative. -/
theorem RegistryInv.count_nonneg (hI : RegistryInv c) : 0 ≤ c.shared.idleCount := by
  cases hlocked : c.shared.idleLocked with
  | false =>
    rw [hI.counted hlocked]
    exact Int.natCast_nonneg _
  | true =>
    obtain ⟨j, hj⟩ := hI.held hlocked
    have hcount := hI.counting j hj
    have hsound := hI.threads j
    cases hloc : c.loc j with
    | markCount id =>
      rw [hloc] at hcount hsound
      have hpos : 0 < c.shared.idleStack.length := List.length_pos_of_mem hsound.2
      simp only [RegistryPc.owes] at hcount
      omega
    | removeCount | unmarkCount | popCount =>
      rw [hloc] at hcount
      simp only [RegistryPc.owes] at hcount
      omega
    | _ =>
      rw [hloc] at hj
      cases hj

/-! ## Calls end -/

/-- A thread that holds the lock of `idle_stack` can go on. -/
theorem registryStep_of_holdsIdle {s : RegistryShared ι} {m : RegistryPc}
    (hm : m.holdsIdle = true) :
    ∃ r, registryStep i s m .go = some r := by
  cases m with
  | removeCount | markCount | unmarkCount | popCount => exact ⟨_, rfl⟩
  | _ => cases hm

/-- A thread that holds the lock of `workers` can go on where that of `idle_stack` is free. -/
theorem registryStep_of_holdsWorkers {s : RegistryShared ι} {m : RegistryPc}
    (hm : m.holdsWorkers = true) (hidle : s.idleLocked = false) :
    ∃ r, registryStep i s m .go = some r := by
  cases m with
  | insertCache | removeCache | removeCount => exact ⟨_, rfl⟩
  | removeIdle => simp [registryStep, hidle]
  | _ => cases hm

/-- Any thread can go on with its call where both locks are free. -/
theorem registryStep_of_free {s : RegistryShared ι} {m : RegistryPc} (hm : m ≠ .idle)
    (hwriting : s.writing = false) (hidle : s.idleLocked = false) :
    ∃ r, registryStep i s m .go = some r := by
  cases m with
  | idle => exact absurd rfl hm
  | insert | remove | removeIdle | unmark => simp [registryStep, hwriting, hidle]
  | mark id => by_cases hid : id ∈ s.idleStack <;> simp [registryStep, hidle, hid]
  | pop => cases hstack : s.idleStack <;> simp [registryStep, hidle, hstack]
  | lookup id => cases hget : s.getWorker id <;> simp [registryStep, hwriting, hget]
  | _ => exact ⟨_, rfl⟩

/-- While a call is under way some call can go on. -/
theorem RegistryInv.progress (hI : RegistryInv c) (hi : c.loc i ≠ .idle) :
    ∃ j c', c.loc j ≠ .idle ∧ (registryMachine ι).step c (j, .go) = some c' := by
  have hgo : ∀ j, c.loc j ≠ .idle → (∃ r, registryStep j c.shared (c.loc j) .go = some r) →
      ∃ j c', c.loc j ≠ .idle ∧ (registryMachine ι).step c (j, .go) = some c' := by
    rintro j hj ⟨r, hr⟩
    exact ⟨j, _, hj, step_iff.2 ⟨r.1, r.2, hr, rfl⟩⟩
  cases hidle : c.shared.idleLocked with
  | true =>
    obtain ⟨j, hj⟩ := hI.held hidle
    refine hgo j (fun hloc => ?_) (registryStep_of_holdsIdle hj)
    rw [hloc] at hj
    cases hj
  | false =>
    cases hwriting : c.shared.writing with
    | true =>
      obtain ⟨j, hj⟩ := hI.written hwriting
      refine hgo j (fun hloc => ?_) (registryStep_of_holdsWorkers hj hidle)
      rw [hloc] at hj
      cases hj
    | false => exact hgo i hi (registryStep_of_free hi hwriting hidle)

/-- A step of `unpark_one_idle` comes closer to its end, or misses a worker. -/
theorem RegistryCallTrans.rank_lt {s : RegistryShared ι} {m : RegistryPc}
    (h : RegistryCallTrans i s m a s' m') (hm : m.unparks = true) (hm' : m'.unparks = true) :
    m'.rank + 3 * (s.missed i).length < m.rank + 3 * (s'.missed i).length := by
  cases h with
  | miss =>
    simp only [Function.update_self, List.length_cons, RegistryPc.rank]
    omega
  | unparkReturn => cases hm'
  | loadNone | load | popNone | pop | popCount | unpark => simp [RegistryPc.rank]
  | _ => cases hm

/-- A call of `unpark_one_idle` has at most five steps, and three more for each worker that it has
missed. -/
theorem unparkOneIdle_moves_le (as : List (ι × RegistryAct))
    (hrun : (registryMachine ι).run c as = some c')
    (hcall : (registryMachine ι).AllStates (fun c => (c.loc i).unparks = true) c as) :
    moves i as ≤ 5 + 3 * (c'.shared.missed i).length := by
  have hle : moves i as + 3 * (c.shared.missed i).length ≤
      (c.loc i).rank + 3 * (c'.shared.missed i).length := by
    refine moves_add_le (I := fun _ => True) RegistryPc.unparks RegistryPc.rank
      (fun s => 3 * (s.missed i).length) i (fun _ _ _ _ _ => trivial) ?_ ?_ as trivial hrun hcall
    · intro c a s' m' _ hm hp hm'
      exact (registryStep_trans hp).rank_lt hm hm'
    · intro c j a s' m' _ hj hp
      rw [((registryStep_trans hp).others (Ne.symm hj)).2]
  have hrank : (c.loc i).rank ≤ 5 := by cases c.loc i <;> simp [RegistryPc.rank]
  omega

end

/-- A registry of which no lock is held: the idle stack has no duplicates, the counter is its
length, the cache has the pair of each worker, no two workers have one id, and every idle worker is
registered. -/
structure RegistryConsistent (s : RegistryShared ι) : Prop where
  nodup : s.idleStack.Nodup
  counted : s.idleCount = s.idleStack.length
  cache : s.registry.stealersCache = s.registry.workers
  ids : (s.registry.workers.map WorkerEntry.id).Nodup
  idle : ∀ id ∈ s.idleStack, s.Registered id

/-- In every run in which workers are marked as idle only while they are registered: the registry is
consistent whenever none of its locks is held; the counter never underflows; `unpark_one_idle`
returns true only by unparking a worker that is registered then and that it has popped off the
stack; some call can always go on; and a call of `unpark_one_idle` ends after at most five steps and
three for each call of `deregister` in the run. -/
theorem registry_consistent [DecidableEq ι] {c : RegistryConfig ι}
    (h : (registryMachine ι).Reachable marksRegistered c) :
    (c.shared.writing = false → c.shared.idleLocked = false → RegistryConsistent c.shared) ∧
    0 ≤ c.shared.idleCount ∧
    (∀ i a c', (registryMachine ι).step c (i, a) = some c' → c'.loc i = .unparkReturn true →
      ∃ id entry, c.loc i = .lookup id ∧ c.shared.popped i = some id ∧
        entry ∈ c.shared.registry.workers ∧ entry.id = id ∧
        c'.shared.unparked = entry :: c.shared.unparked) ∧
    (∀ i, c.loc i ≠ .idle →
      ∃ j c', c.loc j ≠ .idle ∧ (registryMachine ι).step c (j, .go) = some c') ∧
    ∀ i as c', (registryMachine ι).run c as = some c' →
      (registryMachine ι).AllSteps marksRegistered c as →
      (registryMachine ι).AllStates (fun c => (c.loc i).unparks = true) c as →
      moves i as ≤ 5 + 3 * c'.shared.closed.length := by
  have hI : RegistryInv c := reachable_registryInv h
  refine ⟨fun hwriting hlocked => ?_, hI.count_nonneg, fun i a c' hst hret => ?_,
    fun i hi => hI.progress hi, fun i as c' hrun hsteps hcall => ?_⟩
  · refine ⟨hI.nodup, hI.counted hlocked, hI.cache fun i => ?_, hI.ids, fun id hid => ?_⟩
    · refine Bool.eq_false_iff.2 fun hstale => ?_
      have hholds : (c.loc i).holdsWorkers = true := by
        cases hloc : c.loc i with
        | insertCache | removeCache => rfl
        | _ =>
          rw [hloc] at hstale
          cases hstale
      rw [hI.writing.locked_of_holds hholds] at hwriting
      cases hwriting
    · by_contra hr
      exact hI.not_idle hwriting hr hid
  · obtain ⟨s', m', hp, rfl⟩ := step_iff.1 hst
    have ht : RegistryCallTrans i c.shared (c.loc i) a s' m' := registryStep_trans hp
    change Function.update c.loc i m' i = _ at hret
    rw [Function.update_self] at hret
    have hsound := hI.threads i
    generalize c.loc i = m at ht hsound
    subst hret
    cases ht with
    | unpark hfree hget =>
      obtain ⟨hmem, hid⟩ := RegistryShared.getWorker_some hget
      exact ⟨_, _, rfl, hsound.2.1, hmem, hid, rfl⟩
  · have hmoves := unparkOneIdle_moves_le as hrun hcall
    have hI' : RegistryInv c' := reachable_registryInv (h.trans (hsteps.reach hrun))
    obtain ⟨hnodup, hout⟩ := hI'.missed i
    have hle : (c'.shared.missed i).length ≤ c'.shared.closed.length :=
      (hnodup.subperm fun id hid => (hout id hid).1).length_le
    omega

/-- A worker is registered and marked as idle, and another thread unparks it. -/
def markThenUnpark : List (Bool × RegistryAct) :=
  (false, .register ⟨1, 0⟩) :: List.replicate 2 (false, .go) ++
    (false, .markIdle 1) :: List.replicate 2 (false, .go) ++
    (true, .unparkOneIdle) :: List.replicate 4 (true, .go)

/-- The registry is consistent at the end of that run, in which the worker was unparked. -/
theorem registry_consistent_unparked :
    ∃ c, (registryMachine Bool).run (registryMachine Bool).init markThenUnpark = some c ∧
      c.shared.unparked = [⟨1, 0⟩] ∧ c.shared.idleStack = [] ∧ RegistryConsistent c.shared := by
  have hrun : (registryMachine Bool).run (registryMachine Bool).init markThenUnpark = some _ := rfl
  refine ⟨_, hrun, rfl, rfl, (registry_consistent (AllSteps.reach ?_ hrun)).1 rfl rfl⟩
  iterate 3
    intro _ h
    cases h
    refine ⟨⟨nofun, nofun⟩, ?_⟩
  intro _ h
  cases h
  refine ⟨⟨fun id hid => ?_, nofun⟩, ?_⟩
  · cases hid
    exact ⟨.head _, nofun⟩
  iterate 7
    intro _ h
    cases h
    refine ⟨⟨nofun, nofun⟩, ?_⟩
  trivial

end Hypertile
