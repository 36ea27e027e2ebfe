import Hypertile.Machine.Threads
import Mathlib.Data.Prod.Lex

/-!
# The timer driver

The model of `timer.rs`: the timer thread with its loop `run_timer_loop`, and any number of callers
that register entries, shut the driver down, and poll `Sleep` futures. A thread may hold a `Sleep`
for as long as it polls it; the next poll may come from another thread, with another waker.

The clock is global and monotone; it advances between any two steps. The timer thread goes through
its passes one peek or pop at a time, with the lock held. What a caller does under the lock is one
step, as nobody sees the state in between. A pop takes the waker out of the slot of the entry in the
same step: the pop touches the heap only and the take the slot only, so a poll that writes the slot
between the two could as well have done so before them. `BinaryHeap` is a list of which `peek` sees
a maximum, one that is chosen with the action. `parking_lot`'s condition variable has no spurious
wakeups, and a notification that finds nobody waiting is lost.
-/

namespace Hypertile

/-! ## Entries -/

/-- `TimerEntry`; its waker slot is named by `waker`. -/
structure TimerEntry (κ : Type) where
  deadline : ℕ
  id : ℕ
  waker : κ
  deriving DecidableEq

/-- `Ord::cmp`, reversed. -/
def TimerEntry.cmp {κ : Type} (e other : TimerEntry κ) : Ordering :=
  (compare other.deadline e.deadline).then (compare other.id e.id)

/-- `BinaryHeap::peek` can see the entry: it is a maximum of the heap. -/
def Peeks {κ : Type} (heap : List (TimerEntry κ)) (e : TimerEntry κ) : Prop :=
  e ∈ heap ∧ ∀ other ∈ heap, other.cmp e ≠ .gt

instance {κ : Type} [DecidableEq κ] (heap : List (TimerEntry κ)) (e : TimerEntry κ) :
    Decidable (Peeks heap e) := inferInstanceAs (Decidable (_ ∧ _))

/-! ## The state -/

/-- What all threads share: the driver, and of each waker slot the waker and, where it belongs to a
`Sleep`, the flag `registered` and whether a poll has borrowed it. Some fields record what has
happened: the waker of the last poll of a `Sleep` that returned `Pending`, until a later poll writes
the slot; the entries that were registered; the passes of the timer thread, the last one first, each
with its `now` and the entries that it has popped; and the wakers that the timer thread has taken.
-/
structure TimerShared (κ W : Type) where
  now : ℕ
  locked : Bool
  heap : List (TimerEntry κ)
  shutdown : Bool
  /-- The timer thread waits, and whether it has been notified. -/
  condvar : Option Bool
  nextId : ℕ
  slot : κ → Option W
  registered : κ → Bool
  polling : κ → Bool
  awaits : κ → Option W
  entered : List (TimerEntry κ)
  passes : List (ℕ × List (TimerEntry κ))
  taken : List (κ × W)

/-- A wait with a timeout: the entry whose deadline it is for, the clock when the timeout was
computed, and the clock when the wait began. -/
structure TimedWait (κ : Type) where
  entry : TimerEntry κ
  read : ℕ
  since : ℕ

/-- `next.deadline.saturating_duration_since(Instant::now())`. -/
def TimedWait.timeout {κ : Type} (t : TimedWait κ) : ℕ := t.entry.deadline - t.read

/-- Where the timer thread stands. -/
inductive TimerPc (κ W : Type) where
  /-- About to take the lock before the head of the loop. -/
  | lock
  | check
  /-- In a pass, with the wakers that it has collected, and at its end. -/
  | pass (now : ℕ) (expired : List W)
  | passed (now : ℕ) (expired : List W)
  | wake (expired : List W)
  | relock
  | recheck
  | sleep
  | waitFor (entry : TimerEntry κ) (read : ℕ)
  | waiting (timed : Option (TimedWait κ))
  | ended

/-- What is chosen for the timer thread: its next step, the entry that it peeks at, the end of a
wait by its timeout; and how far the clock advances, which is the environment's. -/
inductive TimerAct (κ : Type) where
  | go
  | peek (e : TimerEntry κ)
  | timeout
  | tick (n : ℕ)

/-- Where a caller stands. -/
inductive TimerCallerPc (κ W : Type) where
  | idle
  /-- In `Sleep::poll`: about to clear the slot and return `Ready`, to store the waker, and to look at
  `registered`. -/
  | clear (k : κ)
  | store (k : κ) (w : W)
  | ask (k : κ) (w : W)
  /-- In `register`, about to take the lock; with a waker if called from a poll. -/
  | push (e : TimerEntry κ) (w : Option W)
  /-- In `Sleep::poll`, about to set `registered`. -/
  | mark (k : κ) (w : W)

/-- What is chosen for a caller: its next step, or the call that it makes. The slots that do not
belong to a `Sleep` belong to callers of `register`, who write them as they like. -/
inductive TimerCallerAct (κ W : Type) where
  | go
  | write (k : κ) (w : Option W)
  | register (k : κ) (deadline : ℕ)
  | shutdown
  | poll (k : κ) (w : W)

/-! ## The steps -/

/-- 50 microseconds, in nanoseconds. -/
def pollThreshold : ℕ := 50000

namespace TimerShared

variable {κ W : Type} [DecidableEq κ]

/-- A new driver, at the clock value `now`. -/
def new (now : ℕ) : TimerShared κ W where
  now := now
  locked := false
  heap := []
  shutdown := false
  condvar := none
  nextId := 1
  slot _ := none
  registered _ := false
  polling _ := false
  awaits _ := none
  entered := []
  passes := []
  taken := []

/-- Pops an entry in the current pass and takes its waker. -/
def pop (s : TimerShared κ W) (e : TimerEntry κ) : TimerShared κ W :=
  { s with
    heap := s.heap.erase e
    slot := Function.update s.slot e.waker none
    passes := s.passes.modifyHead fun p => (p.1, p.2 ++ [e])
    taken := (s.slot e.waker).toList.map (fun w => (e.waker, w)) ++ s.taken }

/-- `notify_one` and `notify_all`; one thread waits at most. -/
def notify (s : TimerShared κ W) : TimerShared κ W :=
  { s with condvar := s.condvar.map fun _ => true }

/-- Pushes an entry and notifies. -/
def push (s : TimerShared κ W) (e : TimerEntry κ) : TimerShared κ W :=
  { s with heap := e :: s.heap, entered := e :: s.entered }.notify

/-- `next_id.fetch_add(1)`, on 64 bits. -/
def fetchAddId (s : TimerShared κ W) : TimerShared κ W :=
  { s with nextId := (s.nextId + 1) % 2 ^ 64 }

/-- Writes the slot of a `Sleep` in a poll. -/
def writeSlot (s : TimerShared κ W) (k : κ) (w : Option W) : TimerShared κ W :=
  { s with slot := Function.update s.slot k w, awaits := Function.update s.awaits k none }

/-- Ends a poll that returns `Pending`. -/
def pending (s : TimerShared κ W) (k : κ) (w : W) : TimerShared κ W :=
  { s with
    polling := Function.update s.polling k false
    awaits := Function.update s.awaits k (some w) }

end TimerShared

section
variable {κ W : Type} [DecidableEq κ]

/-- `run_timer_loop`. -/
def timerStep (s : TimerShared κ W) :
    TimerPc κ W → TimerAct κ → Option (TimerShared κ W × TimerPc κ W)
  | m, .tick n => some ({ s with now := s.now + n }, m)
  | .lock, .go => if s.locked then none else some ({ s with locked := true }, .check)
  | .check, .go =>
    if s.shutdown then some ({ s with locked := false }, .ended)
    else some ({ s with passes := (s.now, []) :: s.passes }, .pass s.now [])
  | .pass now expired, .peek e =>
    if Peeks s.heap e then
      if e.deadline ≤ now then some (s.pop e, .pass now (expired ++ (s.slot e.waker).toList))
      else some (s, .passed now expired)
    else none
  | .pass now expired, .go => if s.heap = [] then some (s, .passed now expired) else none
  | .passed _ expired, .go =>
    if expired.isEmpty then some (s, .recheck) else some ({ s with locked := false }, .wake expired)
  | .wake (_ :: expired), .go => some (s, .wake expired)
  | .wake [], .go => some (s, .relock)
  | .relock, .go => if s.locked then none else some ({ s with locked := true }, .recheck)
  | .recheck, .go =>
    if s.shutdown then some ({ s with locked := false }, .ended) else some (s, .sleep)
  | .sleep, .peek e =>
    if Peeks s.heap e then
      if 0 < e.deadline - s.now then some (s, .waitFor e s.now) else some (s, .check)
    else none
  | .sleep, .go =>
    if s.heap = [] then some ({ s with locked := false, condvar := some false }, .waiting none)
    else none
  | .waitFor e read, .go =>
    some ({ s with locked := false, condvar := some false }, .waiting (some ⟨e, read, s.now⟩))
  | .waiting _, .go =>
    if s.condvar = some true then some ({ s with condvar := none }, .lock) else none
  | .waiting (some t), .timeout =>
    if t.since + t.timeout ≤ s.now then some ({ s with condvar := none }, .lock) else none
  | _, _ => none

/-- `register`, `shutdown` and `Sleep::poll`. The slots with a deadline are those of `Sleep`s. -/
def timerCallerStep (deadline : κ → Option ℕ) (s : TimerShared κ W) :
    TimerCallerPc κ W → TimerCallerAct κ W → Option (TimerShared κ W × TimerCallerPc κ W)
  | .idle, .write k w =>
    if deadline k = none then some ({ s with slot := Function.update s.slot k w }, .idle) else none
  | .idle, .register k d =>
    if deadline k = none then some (s.fetchAddId, .push ⟨d, s.nextId, k⟩ none) else none
  | .idle, .shutdown => if s.locked then none else some ({ s with shutdown := true }.notify, .idle)
  | .idle, .poll k w =>
    (deadline k).bind fun d =>
      if s.polling k then none
      else
        some ({ s with polling := Function.update s.polling k true },
          if d ≤ s.now ∨ d - s.now ≤ pollThreshold then .clear k else .store k w)
  | .clear k, .go =>
    some ({ s.writeSlot k none with polling := Function.update s.polling k false }, .idle)
  | .store k w, .go => some (s.writeSlot k (some w), .ask k w)
  | .ask k w, .go =>
    if s.registered k then some (s.pending k w, .idle)
    else (deadline k).map fun d => (s.fetchAddId, .push ⟨d, s.nextId, k⟩ (some w))
  | .push e w, .go =>
    if s.locked then none
    else some (s.push e, match w with | some w => .mark e.waker w | none => .idle)
  | .mark k w, .go =>
    some ({ s with registered := Function.update s.registered k true }.pending k w, .idle)
  | _, _ => none

end

/-- A driver, its timer thread, and the callers. -/
structure TimerConfig (κ W ι : Type) where
  shared : TimerShared κ W
  timer : TimerPc κ W
  loc : ι → TimerCallerPc κ W

/-- All interleavings of the timer thread and the callers `ι`, from a new driver, at the clock value
`now`. -/
def timerMachine {κ : Type} [DecidableEq κ] (W ι : Type) [DecidableEq ι] (deadline : κ → Option ℕ)
    (now : ℕ) : Machine (TimerConfig κ W ι) (TimerAct κ ⊕ ι × TimerCallerAct κ W) where
  init := ⟨.new now, .lock, fun _ => .idle⟩
  step c
    | .inl a => (timerStep c.shared c.timer a).map fun r => ⟨r.1, r.2, c.loc⟩
    | .inr (i, a) => (timerCallerStep deadline c.shared (c.loc i) a).map fun r =>
        ⟨r.1, c.timer, Function.update c.loc i r.2⟩

/-! ## What a step does -/

section
variable {κ W : Type} [DecidableEq κ]

/-- `TimerTrans s m a s' m'`: the timer thread at `m` can take the step `a` from `s`, to `s'` and
`m'`. -/
inductive TimerTrans (s : TimerShared κ W) :
    TimerPc κ W → TimerAct κ → TimerShared κ W → TimerPc κ W → Prop
  | tick {m : TimerPc κ W} {n : ℕ} : TimerTrans s m (.tick n) { s with now := s.now + n } m
  | lock (hfree : s.locked = false) : TimerTrans s .lock .go { s with locked := true } .check
  | ended (hshutdown : s.shutdown = true) :
      TimerTrans s .check .go { s with locked := false } .ended
  | start (hshutdown : s.shutdown = false) :
      TimerTrans s .check .go { s with passes := (s.now, []) :: s.passes } (.pass s.now [])
  | pop {now : ℕ} {expired : List W} {e : TimerEntry κ} (hpeek : Peeks s.heap e)
      (hdue : e.deadline ≤ now) :
      TimerTrans s (.pass now expired) (.peek e) (s.pop e)
        (.pass now (expired ++ (s.slot e.waker).toList))
  | early {now : ℕ} {expired : List W} {e : TimerEntry κ} (hpeek : Peeks s.heap e)
      (hdue : now < e.deadline) :
      TimerTrans s (.pass now expired) (.peek e) s (.passed now expired)
  | drained {now : ℕ} {expired : List W} (hempty : s.heap = []) :
      TimerTrans s (.pass now expired) .go s (.passed now expired)
  | keep {now : ℕ} {expired : List W} (hexpired : expired = []) :
      TimerTrans s (.passed now expired) .go s .recheck
  | unlock {now : ℕ} {expired : List W} (hexpired : expired ≠ []) :
      TimerTrans s (.passed now expired) .go { s with locked := false } (.wake expired)
  | wake {w : W} {expired : List W} : TimerTrans s (.wake (w :: expired)) .go s (.wake expired)
  | woken : TimerTrans s (.wake []) .go s .relock
  | relock (hfree : s.locked = false) :
      TimerTrans s .relock .go { s with locked := true } .recheck
  | endedLate (hshutdown : s.shutdown = true) :
      TimerTrans s .recheck .go { s with locked := false } .ended
  | recheck (hshutdown : s.shutdown = false) : TimerTrans s .recheck .go s .sleep
  | next {e : TimerEntry κ} (hpeek : Peeks s.heap e) (hlater : s.now < e.deadline) :
      TimerTrans s .sleep (.peek e) s (.waitFor e s.now)
  | again {e : TimerEntry κ} (hpeek : Peeks s.heap e) (hdue : e.deadline ≤ s.now) :
      TimerTrans s .sleep (.peek e) s .check
  | wait (hempty : s.heap = []) :
      TimerTrans s .sleep .go { s with locked := false, condvar := some false } (.waiting none)
  | waitFor {e : TimerEntry κ} {read : ℕ} :
      TimerTrans s (.waitFor e read) .go { s with locked := false, condvar := some false }
        (.waiting (some ⟨e, read, s.now⟩))
  | notified {timed : Option (TimedWait κ)} (hnotified : s.condvar = some true) :
      TimerTrans s (.waiting timed) .go { s with condvar := none } .lock
  | timedOut {t : TimedWait κ} (hlate : t.since + t.timeout ≤ s.now) :
      TimerTrans s (.waiting (some t)) .timeout { s with condvar := none } .lock

/-- `TimerCallerTrans deadline s m a s' m'`: a caller at `m` can take the step `a` from `s`, to `s'`
and `m'`. -/
inductive TimerCallerTrans (deadline : κ → Option ℕ) (s : TimerShared κ W) :
    TimerCallerPc κ W → TimerCallerAct κ W → TimerShared κ W → TimerCallerPc κ W → Prop
  | write {k : κ} {w : Option W} (hfree : deadline k = none) :
      TimerCallerTrans deadline s .idle (.write k w)
        { s with slot := Function.update s.slot k w } .idle
  | register {k : κ} {d : ℕ} (hfree : deadline k = none) :
      TimerCallerTrans deadline s .idle (.register k d) s.fetchAddId (.push ⟨d, s.nextId, k⟩ none)
  | shutdown (hfree : s.locked = false) :
      TimerCallerTrans deadline s .idle .shutdown { s with shutdown := true }.notify .idle
  | ready {k : κ} {w : W} {d : ℕ} (hd : deadline k = some d) (hfree : s.polling k = false)
      (hdue : d ≤ s.now ∨ d - s.now ≤ pollThreshold) :
      TimerCallerTrans deadline s .idle (.poll k w)
        { s with polling := Function.update s.polling k true } (.clear k)
  | poll {k : κ} {w : W} {d : ℕ} (hd : deadline k = some d) (hfree : s.polling k = false)
      (hearly : ¬(d ≤ s.now ∨ d - s.now ≤ pollThreshold)) :
      TimerCallerTrans deadline s .idle (.poll k w)
        { s with polling := Function.update s.polling k true } (.store k w)
  | clear {k : κ} :
      TimerCallerTrans deadline s (.clear k) .go
        { s.writeSlot k none with polling := Function.update s.polling k false } .idle
  | store {k : κ} {w : W} :
      TimerCallerTrans deadline s (.store k w) .go (s.writeSlot k (some w)) (.ask k w)
  | pending {k : κ} {w : W} (hregistered : s.registered k = true) :
      TimerCallerTrans deadline s (.ask k w) .go (s.pending k w) .idle
  | ask {k : κ} {w : W} {d : ℕ} (hregistered : s.registered k = false) (hd : deadline k = some d) :
      TimerCallerTrans deadline s (.ask k w) .go s.fetchAddId (.push ⟨d, s.nextId, k⟩ (some w))
  | push {e : TimerEntry κ} (hfree : s.locked = false) :
      TimerCallerTrans deadline s (.push e none) .go (s.push e) .idle
  | pushSleep {e : TimerEntry κ} {w : W} (hfree : s.locked = false) :
      TimerCallerTrans deadline s (.push e (some w)) .go (s.push e) (.mark e.waker w)
  | mark {k : κ} {w : W} :
      TimerCallerTrans deadline s (.mark k w) .go
        ({ s with registered := Function.update s.registered k true }.pending k w) .idle

/-- What a step of the timer thread can do. -/
theorem timerStep_trans {s s' : TimerShared κ W} {m m' : TimerPc κ W} {a : TimerAct κ}
    (h : timerStep s m a = some (s', m')) : TimerTrans s m a s' m' := by
  unfold timerStep at h
  split at h
  · cases h; exact .tick
  · split at h
    · cases h
    · next hfree => cases h; exact .lock (Bool.eq_false_iff.2 hfree)
  · split at h
    · next hshutdown => cases h; exact .ended hshutdown
    · next hshutdown => cases h; exact .start (Bool.eq_false_iff.2 hshutdown)
  · split at h
    · next hpeek =>
      split at h
      · next hdue => cases h; exact .pop hpeek hdue
      · next hdue => cases h; exact .early hpeek (Nat.lt_of_not_le hdue)
    · cases h
  · split at h
    · next hempty => cases h; exact .drained hempty
    · cases h
  · split at h
    · next hexpired => cases h; exact .keep (List.isEmpty_iff.1 hexpired)
    · next hexpired => cases h; exact .unlock fun he => hexpired (List.isEmpty_iff.2 he)
  · cases h; exact .wake
  · cases h; exact .woken
  · split at h
    · cases h
    · next hfree => cases h; exact .relock (Bool.eq_false_iff.2 hfree)
  · split at h
    · next hshutdown => cases h; exact .endedLate hshutdown
    · next hshutdown => cases h; exact .recheck (Bool.eq_false_iff.2 hshutdown)
  · split at h
    · next hpeek =>
      split at h
      · next hlater => cases h; exact .next hpeek (Nat.lt_of_sub_pos hlater)
      · next hdue => cases h; exact .again hpeek (by omega)
    · cases h
  · split at h
    · next hempty => cases h; exact .wait hempty
    · cases h
  · cases h; exact .waitFor
  · split at h
    · next hnotified => cases h; exact .notified hnotified
    · cases h
  · split at h
    · next hlate => cases h; exact .timedOut hlate
    · cases h
  · cases h

/-- What a step of a caller can do. -/
theorem timerCallerStep_trans {deadline : κ → Option ℕ} {s s' : TimerShared κ W}
    {m m' : TimerCallerPc κ W} {a : TimerCallerAct κ W}
    (h : timerCallerStep deadline s m a = some (s', m')) :
    TimerCallerTrans deadline s m a s' m' := by
  unfold timerCallerStep at h
  split at h
  · split at h
    · next hfree => cases h; exact .write hfree
    · cases h
  · split at h
    · next hfree => cases h; exact .register hfree
    · cases h
  · split at h
    · cases h
    · next hfree => cases h; exact .shutdown (Bool.eq_false_iff.2 hfree)
  · obtain ⟨d, hd, h⟩ := Option.bind_eq_some_iff.1 h
    split at h
    · cases h
    · next hfree =>
      have hfree := Bool.eq_false_iff.2 hfree
      split at h
      · next hdue => cases h; exact .ready hd hfree hdue
      · next hearly => cases h; exact .poll hd hfree hearly
  · cases h; exact .clear
  · cases h; exact .store
  · split at h
    · next hregistered => cases h; exact .pending hregistered
    · next hregistered =>
      obtain ⟨d, hd, h⟩ := Option.map_eq_some_iff.1 h
      cases h
      exact .ask (Bool.eq_false_iff.2 hregistered) hd
  · next e w =>
    split at h
    · cases h
    · next hfree =>
      have hfree := Bool.eq_false_iff.2 hfree
      cases w with
      | none => cases h; exact .push hfree
      | some w => cases h; exact .pushSleep hfree
  · cases h; exact .mark
  · cases h

variable {ι : Type} [DecidableEq ι] {deadline : κ → Option ℕ} {now : ℕ}

/-- A step of the machine is one of the timer thread or of a caller. -/
theorem timerMachine_step {c c' : TimerConfig κ W ι} {a : TimerAct κ ⊕ ι × TimerCallerAct κ W}
    (h : (timerMachine W ι deadline now).step c a = some c') :
    (∃ b s' m', a = .inl b ∧ TimerTrans c.shared c.timer b s' m' ∧ c' = ⟨s', m', c.loc⟩) ∨
      ∃ i b s' m', a = .inr (i, b) ∧ TimerCallerTrans deadline c.shared (c.loc i) b s' m' ∧
        c' = ⟨s', c.timer, Function.update c.loc i m'⟩ := by
  rcases a with b | ⟨i, b⟩
  · obtain ⟨⟨s', m'⟩, hp, rfl⟩ := Option.map_eq_some_iff.1 h
    exact .inl ⟨b, s', m', rfl, timerStep_trans hp, rfl⟩
  · obtain ⟨⟨s', m'⟩, hp, rfl⟩ := Option.map_eq_some_iff.1 h
    exact .inr ⟨i, b, s', m', rfl, timerCallerStep_trans hp, rfl⟩

end

/-! ## The order of the heap -/

/-- What entries are ordered by. -/
def TimerEntry.key {κ : Type} (e : TimerEntry κ) : ℕ ×ₗ ℕ := toLex (e.deadline, e.id)

/-- `cmp` is the reversed order of the keys. -/
theorem TimerEntry.cmp_ne_gt {κ : Type} {e other : TimerEntry κ} :
    other.cmp e ≠ .gt ↔ e.key ≤ other.key := by
  rw [← not_lt, not_iff_not, TimerEntry.cmp, Ordering.then_eq_gt, Nat.compare_eq_gt,
    Nat.compare_eq_eq, Nat.compare_eq_gt]
  simp [TimerEntry.key, Prod.Lex.toLex_lt_toLex, eq_comm]

/-- What is peeked at comes first in the order of the keys. -/
theorem Peeks.key_le {κ : Type} {heap : List (TimerEntry κ)} {e other : TimerEntry κ}
    (h : Peeks heap e) (hmem : other ∈ heap) : e.key ≤ other.key :=
  TimerEntry.cmp_ne_gt.1 (h.2 other hmem)

/-- Keys in order have their deadlines in order. -/
theorem TimerEntry.deadline_le {κ : Type} {e other : TimerEntry κ} (h : e.key ≤ other.key) :
    e.deadline ≤ other.deadline := by
  rcases Prod.Lex.toLex_le_toLex.1 h with hlt | ⟨heq, -⟩
  · exact hlt.le
  · exact heq.le

end Hypertile
