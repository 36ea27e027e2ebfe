import Hypertile.Machine.Threads
import Hypertile.Pool.Core

/-!
# The worker registry under concurrent calls

The model of `WorkerRegistry` in `executor.rs`, with its locks: any number of threads that allocate
ids, register and deregister workers, mark and unmark them as idle, and unpark an idle worker. The
registry proper is that of the pool; its operations are taken apart here into their lock sections
and atomics. A step that takes a lock makes the first access under it, and the last access under a
lock gives it up, as nobody sees the state in between. `deregister` takes the lock of `idle_stack`
while it holds that of `workers`; `unpark_one_idle` gives the one up before it takes the other. The
lock of `stealers_cache` is taken for one store by whoever holds that of `workers`.

The counter is an integer, of which it is proved that it is never negative; it is bounded by the
number of workers. The order in which a `HashMap` gives its values is the one in which they were put
in; nothing depends on it.
-/

namespace Hypertile

/-- What all threads share. Some fields record what has happened: the ids whose `register` has
returned, those that `deregister` was called for, the id that the last pop of a thread in
`unpark_one_idle` has taken off the stack, the entries whose worker was unparked, and the ids that a
thread has popped and not found among the workers. -/
structure RegistryShared (ι : Type) where
  registry : WorkerRegistry
  /-- The lock of `workers` is held for writing. -/
  writing : Bool
  /-- The top is first. -/
  idleStack : List WorkerId
  idleLocked : Bool
  idleCount : ℤ
  live : List WorkerId
  closed : List WorkerId
  popped : ι → Option WorkerId
  unparked : List WorkerEntry
  missed : ι → List WorkerId

/-- Where a thread stands. -/
inductive RegistryPc where
  | idle
  /-- `register`: about to insert the entry, and to rebuild the cache. -/
  | insert (entry : WorkerEntry)
  | insertCache (entry : WorkerEntry)
  /-- `deregister`: about to remove the entry, to rebuild the cache, to remove the id from the idle
  stack, and to count. -/
  | remove (id : WorkerId)
  | removeCache (id : WorkerId)
  | removeIdle (id : WorkerId)
  | removeCount (id : WorkerId) (removed : ℕ)
  /-- `mark_idle`: about to push, and to count. -/
  | mark (id : WorkerId)
  | markCount (id : WorkerId)
  /-- `unmark_idle`: about to remove the id, and to count. -/
  | unmark (id : WorkerId)
  | unmarkCount (removed : ℕ)
  /-- `unpark_one_idle`: about to read the counter, to pop, to count, to look the worker up and unpark
  it, and to return. -/
  | load
  | pop
  | popCount (id : WorkerId)
  | lookup (id : WorkerId)
  | unparkReturn (unparked : Bool)
  deriving DecidableEq

/-- What is chosen for a thread: its next step, or the call that it makes. -/
inductive RegistryAct where
  | go
  | allocateId
  | register (entry : WorkerEntry)
  | deregister (id : WorkerId)
  | markIdle (id : WorkerId)
  | unmarkIdle (id : WorkerId)
  | unparkOneIdle

namespace RegistryShared

variable {ι : Type}

/-- `WorkerRegistry::new`. -/
def new : RegistryShared ι where
  registry := .new
  writing := false
  idleStack := []
  idleLocked := false
  idleCount := 0
  live := []
  closed := []
  popped _ := none
  unparked := []
  missed _ := []

/-- `workers.insert(id, entry)`: the entry replaces one with its id. -/
def insertWorker (s : RegistryShared ι) (entry : WorkerEntry) : RegistryShared ι :=
  { s with
    registry.workers := entry :: s.registry.workers.filter (·.id ≠ entry.id)
    writing := true }

/-- `workers.remove(&id)`. -/
def removeWorker (s : RegistryShared ι) (id : WorkerId) : RegistryShared ι :=
  { s with registry.workers := s.registry.workers.filter (·.id ≠ id), writing := true }

/-- `rebuild_stealers_cache`. -/
def rebuildCache (s : RegistryShared ι) : RegistryShared ι :=
  { s with registry := s.registry.rebuildStealersCache }

/-- `workers.get(&id)`. -/
def getWorker (s : RegistryShared ι) (id : WorkerId) : Option WorkerEntry :=
  s.registry.workers.find? (·.id = id)

/-- `idle.retain(|&w_id| w_id != id)`. -/
def retain (s : RegistryShared ι) (id : WorkerId) : List WorkerId := s.idleStack.filter (· ≠ id)

/-- `len_before - idle.len()`. -/
def removed (s : RegistryShared ι) (id : WorkerId) : ℕ :=
  s.idleStack.length - (s.retain id).length

end RegistryShared

section
variable {ι : Type} [DecidableEq ι]

/-- A step of a thread. -/
def registryStep (i : ι) (s : RegistryShared ι) :
    RegistryPc → RegistryAct → Option (RegistryShared ι × RegistryPc)
  | .idle, .allocateId => some ({ s with registry := s.registry.allocateId.2 }, .idle)
  | .idle, .register entry => some (s, .insert entry)
  | .idle, .deregister id => some ({ s with closed := id :: s.closed }, .remove id)
  | .idle, .markIdle id => some (s, .mark id)
  | .idle, .unmarkIdle id => some (s, .unmark id)
  | .idle, .unparkOneIdle => some ({ s with popped := Function.update s.popped i none }, .load)
  | .insert entry, .go =>
    if s.writing then none else some (s.insertWorker entry, .insertCache entry)
  | .insertCache entry, .go =>
    some ({ s.rebuildCache with writing := false, live := entry.id :: s.live }, .idle)
  | .remove id, .go => if s.writing then none else some (s.removeWorker id, .removeCache id)
  | .removeCache id, .go => some (s.rebuildCache, .removeIdle id)
  | .removeIdle id, .go =>
    if s.idleLocked then none
    else
      some ({ s with idleLocked := true, idleStack := s.retain id },
        .removeCount id (s.removed id))
  | .removeCount _ removed, .go =>
    some ({ s with
      idleCount := if 0 < removed then s.idleCount - removed else s.idleCount
      idleLocked := false
      writing := false }, .idle)
  | .mark id, .go =>
    if s.idleLocked then none
    else if id ∈ s.idleStack then some (s, .idle)
    else some ({ s with idleLocked := true, idleStack := id :: s.idleStack }, .markCount id)
  | .markCount _, .go => some ({ s with idleCount := s.idleCount + 1, idleLocked := false }, .idle)
  | .unmark id, .go =>
    if s.idleLocked then none
    else some ({ s with idleLocked := true, idleStack := s.retain id }, .unmarkCount (s.removed id))
  | .unmarkCount removed, .go =>
    some ({ s with
      idleCount := if 0 < removed then s.idleCount - removed else s.idleCount
      idleLocked := false }, .idle)
  | .load, .go => some (s, if s.idleCount = 0 then .unparkReturn false else .pop)
  | .pop, .go =>
    if s.idleLocked then none
    else
      match s.idleStack with
      | [] => some (s, .unparkReturn false)
      | id :: rest =>
        some ({ s with
          idleLocked := true
          idleStack := rest
          popped := Function.update s.popped i (some id) }, .popCount id)
  | .popCount id, .go =>
    some ({ s with idleCount := s.idleCount - 1, idleLocked := false }, .lookup id)
  | .lookup id, .go =>
    if s.writing then none
    else
      match s.getWorker id with
      | some entry => some ({ s with unparked := entry :: s.unparked }, .unparkReturn true)
      | none => some ({ s with missed := Function.update s.missed i (id :: s.missed i) }, .pop)
  | .unparkReturn _, .go => some (s, .idle)
  | _, _ => none

/-- The configurations of a registry. -/
abbrev RegistryConfig (ι : Type) := Machine.Config (RegistryShared ι) RegistryPc ι

/-- All interleavings of the threads `ι`, from a new registry. -/
def registryMachine (ι : Type) [DecidableEq ι] : Machine (RegistryConfig ι) (ι × RegistryAct) :=
  .threads registryStep ⟨.new, fun _ => .idle⟩

end

/-! ## What a step does -/

section
variable {ι : Type} [DecidableEq ι]

/-- `RegistryCallTrans i s m a s' m'`: thread `i` at `m` can take the step `a` from `s`, to `s'` and
`m'`. -/
inductive RegistryCallTrans (i : ι) (s : RegistryShared ι) :
    RegistryPc → RegistryAct → RegistryShared ι → RegistryPc → Prop
  | allocateId :
      RegistryCallTrans i s .idle .allocateId { s with registry := s.registry.allocateId.2 } .idle
  | register {entry : WorkerEntry} :
      RegistryCallTrans i s .idle (.register entry) s (.insert entry)
  | deregister {id : WorkerId} :
      RegistryCallTrans i s .idle (.deregister id) { s with closed := id :: s.closed } (.remove id)
  | markIdle {id : WorkerId} : RegistryCallTrans i s .idle (.markIdle id) s (.mark id)
  | unmarkIdle {id : WorkerId} : RegistryCallTrans i s .idle (.unmarkIdle id) s (.unmark id)
  | unparkOneIdle :
      RegistryCallTrans i s .idle .unparkOneIdle
        { s with popped := Function.update s.popped i none } .load
  | insert {entry : WorkerEntry} (hfree : s.writing = false) :
      RegistryCallTrans i s (.insert entry) .go (s.insertWorker entry) (.insertCache entry)
  | insertCache {entry : WorkerEntry} :
      RegistryCallTrans i s (.insertCache entry) .go
        { s.rebuildCache with writing := false, live := entry.id :: s.live } .idle
  | remove {id : WorkerId} (hfree : s.writing = false) :
      RegistryCallTrans i s (.remove id) .go (s.removeWorker id) (.removeCache id)
  | removeCache {id : WorkerId} :
      RegistryCallTrans i s (.removeCache id) .go s.rebuildCache (.removeIdle id)
  | removeIdle {id : WorkerId} (hfree : s.idleLocked = false) :
      RegistryCallTrans i s (.removeIdle id) .go
        { s with idleLocked := true, idleStack := s.retain id } (.removeCount id (s.removed id))
  | removeCount {id : WorkerId} {removed : ℕ} :
      RegistryCallTrans i s (.removeCount id removed) .go
        { s with idleCount := s.idleCount - removed, idleLocked := false, writing := false } .idle
  | marked {id : WorkerId} (hfree : s.idleLocked = false) (hmem : id ∈ s.idleStack) :
      RegistryCallTrans i s (.mark id) .go s .idle
  | mark {id : WorkerId} (hfree : s.idleLocked = false) (hmem : id ∉ s.idleStack) :
      RegistryCallTrans i s (.mark id) .go
        { s with idleLocked := true, idleStack := id :: s.idleStack } (.markCount id)
  | markCount {id : WorkerId} :
      RegistryCallTrans i s (.markCount id) .go
        { s with idleCount := s.idleCount + 1, idleLocked := false } .idle
  | unmark {id : WorkerId} (hfree : s.idleLocked = false) :
      RegistryCallTrans i s (.unmark id) .go
        { s with idleLocked := true, idleStack := s.retain id } (.unmarkCount (s.removed id))
  | unmarkCount {removed : ℕ} :
      RegistryCallTrans i s (.unmarkCount removed) .go
        { s with idleCount := s.idleCount - removed, idleLocked := false } .idle
  | loadNone (hcount : s.idleCount = 0) : RegistryCallTrans i s .load .go s (.unparkReturn false)
  | load (hcount : s.idleCount ≠ 0) : RegistryCallTrans i s .load .go s .pop
  | popNone (hfree : s.idleLocked = false) (hstack : s.idleStack = []) :
      RegistryCallTrans i s .pop .go s (.unparkReturn false)
  | pop {id : WorkerId} {rest : List WorkerId} (hfree : s.idleLocked = false)
      (hstack : s.idleStack = id :: rest) :
      RegistryCallTrans i s .pop .go
        { s with
          idleLocked := true
          idleStack := rest
          popped := Function.update s.popped i (some id) } (.popCount id)
  | popCount {id : WorkerId} :
      RegistryCallTrans i s (.popCount id) .go
        { s with idleCount := s.idleCount - 1, idleLocked := false } (.lookup id)
  | unpark {id : WorkerId} {entry : WorkerEntry} (hfree : s.writing = false)
      (hget : s.getWorker id = some entry) :
      RegistryCallTrans i s (.lookup id) .go { s with unparked := entry :: s.unparked }
        (.unparkReturn true)
  | miss {id : WorkerId} (hfree : s.writing = false) (hget : s.getWorker id = none) :
      RegistryCallTrans i s (.lookup id) .go
        { s with missed := Function.update s.missed i (id :: s.missed i) } .pop
  | unparkReturn {unparked : Bool} : RegistryCallTrans i s (.unparkReturn unparked) .go s .idle

/-- `if removed > 0` only saves a subtraction of zero. -/
theorem sub_removed (count : ℤ) (removed : ℕ) :
    (if 0 < removed then count - removed else count) = count - removed := by
  split <;> omega

/-- What a step can do. -/
theorem registryStep_trans {i : ι} {s s' : RegistryShared ι} {m m' : RegistryPc} {a : RegistryAct}
    (h : registryStep i s m a = some (s', m')) : RegistryCallTrans i s m a s' m' := by
  unfold registryStep at h
  simp only [sub_removed] at h
  split at h
  · cases h; exact .allocateId
  · cases h; exact .register
  · cases h; exact .deregister
  · cases h; exact .markIdle
  · cases h; exact .unmarkIdle
  · cases h; exact .unparkOneIdle
  · split at h
    · cases h
    · next hfree => cases h; exact .insert (Bool.eq_false_iff.2 hfree)
  · cases h; exact .insertCache
  · split at h
    · cases h
    · next hfree => cases h; exact .remove (Bool.eq_false_iff.2 hfree)
  · cases h; exact .removeCache
  · split at h
    · cases h
    · next hfree => cases h; exact .removeIdle (Bool.eq_false_iff.2 hfree)
  · cases h; exact .removeCount
  · split at h
    · cases h
    · next hfree =>
      have hfree := Bool.eq_false_iff.2 hfree
      split at h
      · next hmem => cases h; exact .marked hfree hmem
      · next hmem => cases h; exact .mark hfree hmem
  · cases h; exact .markCount
  · split at h
    · cases h
    · next hfree => cases h; exact .unmark (Bool.eq_false_iff.2 hfree)
  · cases h; exact .unmarkCount
  · cases h
    split
    · next hcount => exact .loadNone hcount
    · next hcount => exact .load hcount
  · split at h
    · cases h
    · next hfree =>
      have hfree := Bool.eq_false_iff.2 hfree
      split at h
      · next hstack => cases h; exact .popNone hfree hstack
      · next hstack => cases h; exact .pop hfree hstack
  · cases h; exact .popCount
  · split at h
    · cases h
    · next hfree =>
      have hfree := Bool.eq_false_iff.2 hfree
      split at h
      · next hget => cases h; exact .unpark hfree hget
      · next hget => cases h; exact .miss hfree hget
  · cases h; exact .unparkReturn
  · cases h

end

end Hypertile
