import Hypertile.Timer.Driver

/-!
# The timer loop

Each registered entry is popped at most once and never early; the entries of one pass come out in
the order of deadline and id, and a pass leaves none that is due; and the timer thread does not
sleep longer than the earliest deadline of the heap allows (`timer_loop_faithful`). The heap changes
under the lock only, and the timer thread holds it from the peek that decides how long to wait until
the wait begins, so what is registered later finds it waiting and notifies it.
-/

namespace Hypertile

open Machine

variable {κ W ι : Type} [DecidableEq κ]

/-! ## What the timer thread knows -/

/-- The timer thread holds the lock. -/
def TimerPc.holds : TimerPc κ W → Bool
  | .check | .pass .. | .passed .. | .recheck | .sleep | .waitFor .. => true
  | _ => false

/-- The timer thread waits on the condition variable. -/
def TimerPc.waits : TimerPc κ W → Bool
  | .waiting _ => true
  | _ => false

/-- A pass: its `now` is not ahead of the clock, and the entries that it has popped were due then
and came out in the order of their keys. -/
structure PassSound (clock : ℕ) (p : ℕ × List (TimerEntry κ)) : Prop where
  read : p.1 ≤ clock
  due : ∀ e ∈ p.2, e.deadline ≤ p.1
  ordered : p.2.Pairwise fun e other => e.key ≤ other.key

/-- What a wait with a timeout was computed from is an entry with the smallest deadline of the heap,
read not after the wait began. -/
structure TimedWait.Earliest (t : TimedWait κ) (s : TimerShared κ W) : Prop where
  mem : t.entry ∈ s.heap
  least : ∀ e ∈ s.heap, t.entry.deadline ≤ e.deadline
  timeout_pos : 0 < t.timeout
  read : t.read ≤ t.since
  since : t.since ≤ s.now

/-- What the timer thread knows of the heap where it stands. -/
def TimerPc.Knows (s : TimerShared κ W) : TimerPc κ W → Prop
  | .pass now _ => ∃ popped rest, s.passes = (now, popped) :: rest ∧
      ∀ e ∈ popped, ∀ other ∈ s.heap, e.key ≤ other.key
  | .passed now _ => (∃ popped rest, s.passes = (now, popped) :: rest) ∧
      ∀ e ∈ s.heap, now < e.deadline
  | .sleep => s.shutdown = false
  | .waitFor e read => s.shutdown = false ∧ TimedWait.Earliest ⟨e, read, s.now⟩ s
  | .waiting none => s.condvar = some false → s.shutdown = false → s.heap = []
  | .waiting (some t) => s.condvar = some false → s.shutdown = false → t.Earliest s
  | _ => True

/-- What holds of every run. -/
structure TimerInv (c : TimerConfig κ W ι) : Prop where
  locked : c.shared.locked = c.timer.holds
  condvar : c.shared.condvar.isSome = c.timer.waits
  /-- Every registered entry is in the heap or was popped, once. -/
  once : ∀ e, c.shared.heap.count e + (c.shared.passes.flatMap Prod.snd).count e =
    c.shared.entered.count e
  passes : ∀ p ∈ c.shared.passes, PassSound c.shared.now p
  knows : c.timer.Knows c.shared

/-! ## The steps of the timer thread -/

section
variable {s s' : TimerShared κ W} {m m' : TimerPc κ W} {a : TimerAct κ}

/-- The timer thread records whether it holds the lock. -/
theorem TimerTrans.locked (h : TimerTrans s m a s' m') (hl : s.locked = m.holds) :
    s'.locked = m'.holds := by
  cases h <;> first | exact hl | rfl

/-- The condition variable records whether the timer thread waits. -/
theorem TimerTrans.condvar (h : TimerTrans s m a s' m') (hc : s.condvar.isSome = m.waits) :
    s'.condvar.isSome = m'.waits := by
  cases h <;> first | exact hc | rfl

/-- What the timer thread pops leaves the heap for the log of its pass. -/
theorem TimerTrans.once (h : TimerTrans s m a s' m') (hk : m.Knows s) (e : TimerEntry κ) :
    s'.entered = s.entered ∧ s'.heap.count e + (s'.passes.flatMap Prod.snd).count e =
      s.heap.count e + (s.passes.flatMap Prod.snd).count e := by
  cases h with
  | @pop now _ next hpeek =>
    refine ⟨rfl, ?_⟩
    obtain ⟨popped, rest, hpasses, -⟩ := hk
    have hcount : 0 < s.heap.count next := List.count_pos_iff.2 hpeek.1
    simp only [TimerShared.pop, hpasses, List.modifyHead_cons, List.flatMap_cons, List.count_append,
      List.count_erase, List.count_singleton]
    by_cases he : next = e
    · subst he
      simp only [beq_self_eq_true, if_true]
      omega
    · simp [he]
  | start => exact ⟨rfl, by simp⟩
  | _ => exact ⟨rfl, rfl⟩

/-- The passes stay sound. -/
theorem TimerTrans.passes (h : TimerTrans s m a s' m') (hk : m.Knows s)
    (hp : ∀ p ∈ s.passes, PassSound s.now p) : ∀ p ∈ s'.passes, PassSound s'.now p := by
  cases h with
  | @tick _ n =>
    intro p hmem
    have hsound := hp p hmem
    exact { hsound with read := hsound.read.trans (Nat.le_add_right _ _) }
  | start =>
    intro p hmem
    rcases List.mem_cons.1 hmem with rfl | hmem
    · exact ⟨le_rfl, nofun, .nil⟩
    · exact hp p hmem
  | @pop now _ e hpeek hdue =>
    obtain ⟨popped, rest, hpasses, hbefore⟩ := hk
    rw [hpasses] at hp
    intro p hmem
    simp only [TimerShared.pop, hpasses, List.modifyHead_cons, List.mem_cons] at hmem
    rcases hmem with rfl | hmem
    · have hsound := hp _ (.head _)
      refine ⟨hsound.read, fun other hother => ?_, ?_⟩
      · rcases List.mem_append.1 hother with hold | hnew
        · exact hsound.due other hold
        · rw [List.mem_singleton.1 hnew]
          exact hdue
      · refine List.pairwise_append.2 ⟨hsound.ordered, List.pairwise_singleton _ _, ?_⟩
        intro first hfirst other hother
        rw [List.mem_singleton.1 hother]
        exact hbefore first hfirst e hpeek.1
    · exact hp p (.tail _ hmem)
  | _ => exact hp

/-- The timer thread keeps to what it knows. -/
theorem TimerTrans.knows (h : TimerTrans s m a s' m') (hk : m.Knows s)
    (hc : s.condvar.isSome = m.waits) : m'.Knows s' := by
  cases h with
  | @tick m n =>
    cases m with
    | waitFor e read =>
      exact ⟨hk.1, { hk.2 with read := hk.2.read.trans (Nat.le_add_right _ _), since := le_rfl }⟩
    | waiting timed =>
      cases timed with
      | none => exact hk
      | some t =>
        intro hcalm hrun
        have hearliest := hk hcalm hrun
        exact { hearliest with since := hearliest.since.trans (Nat.le_add_right _ _) }
    | _ => exact hk
  | start => exact ⟨[], _, rfl, nofun⟩
  | @pop now _ e hpeek =>
    obtain ⟨popped, rest, hpasses, hbefore⟩ := hk
    refine ⟨popped ++ [e], rest, by simp [TimerShared.pop, hpasses],
      fun first hfirst other hother => ?_⟩
    have hother : other ∈ s.heap := List.mem_of_mem_erase hother
    rcases List.mem_append.1 hfirst with hold | hnew
    · exact hbefore first hold other hother
    · rw [List.mem_singleton.1 hnew]
      exact hpeek.key_le hother
  | @early now _ e hpeek hdue =>
    obtain ⟨popped, rest, hpasses, -⟩ := hk
    exact ⟨⟨popped, rest, hpasses⟩, fun other hother =>
      hdue.trans_le (TimerEntry.deadline_le (hpeek.key_le hother))⟩
  | @drained now _ hempty =>
    obtain ⟨popped, rest, hpasses, -⟩ := hk
    refine ⟨⟨popped, rest, hpasses⟩, fun other hother => ?_⟩
    rw [hempty] at hother
    cases hother
  | recheck hshutdown => exact hshutdown
  | next hpeek hlater =>
    exact ⟨hk, hpeek.1, fun other hother => TimerEntry.deadline_le (hpeek.key_le hother),
      Nat.sub_pos_of_lt hlater, le_rfl, le_rfl⟩
  | wait hempty => exact fun _ _ => hempty
  | waitFor => exact fun _ _ => ⟨hk.2.mem, hk.2.least, hk.2.timeout_pos, hk.2.read, hk.2.since⟩
  | _ => trivial

end

/-! ## The steps of the callers -/

section
variable {deadline : κ → Option ℕ} {s s' : TimerShared κ W} {m m' : TimerCallerPc κ W}
  {a : TimerCallerAct κ W}

/-- What a step of a caller does to the driver: it leaves it as it is, or it finds the lock free,
notifies, and may have pushed an entry. -/
theorem TimerCallerTrans.driver (h : TimerCallerTrans deadline s m a s' m') :
    s'.heap = s.heap ∧ s'.entered = s.entered ∧ s'.shutdown = s.shutdown ∧
        s'.condvar = s.condvar ∨
      s.locked = false ∧ s'.condvar = s.condvar.map (fun _ => true) ∧
        (s'.heap = s.heap ∧ s'.entered = s.entered ∨
          ∃ e, s'.heap = e :: s.heap ∧ s'.entered = e :: s.entered) := by
  cases h with
  | shutdown hfree => exact .inr ⟨hfree, rfl, .inl ⟨rfl, rfl⟩⟩
  | push hfree | pushSleep hfree => exact .inr ⟨hfree, rfl, .inr ⟨_, rfl, rfl⟩⟩
  | _ => exact .inl ⟨rfl, rfl, rfl, rfl⟩

/-- What a step of a caller leaves as it is. -/
theorem TimerCallerTrans.keeps (h : TimerCallerTrans deadline s m a s' m') :
    s'.locked = s.locked ∧ s'.passes = s.passes ∧ s'.now = s.now := by
  cases h <;> exact ⟨rfl, rfl, rfl⟩

/-- A step of a caller leaves what the timer thread knows. -/
theorem TimerCallerTrans.knows {t : TimerPc κ W} (h : TimerCallerTrans deadline s m a s' m')
    (hl : s.locked = t.holds) (hk : t.Knows s) : t.Knows s' := by
  obtain ⟨-, hpasses, hnow⟩ := h.keeps
  rcases h.driver with ⟨hheap, -, hshutdown, hcondvar⟩ | ⟨hfree, hcondvar, -⟩
  · cases t with
    | waiting timed =>
      cases timed with
      | none =>
        intro hcalm hrun
        rw [hcondvar] at hcalm
        rw [hshutdown] at hrun
        exact hheap.trans (hk hcalm hrun)
      | some t =>
        intro hcalm hrun
        rw [hcondvar] at hcalm
        rw [hshutdown] at hrun
        obtain ⟨hmem, hleast, hpos, hread, hsince⟩ := hk hcalm hrun
        exact ⟨hheap ▸ hmem, hheap ▸ hleast, hpos, hread, hnow ▸ hsince⟩
    | waitFor e read =>
      obtain ⟨hrun, hmem, hleast, hpos, hread, hsince⟩ := hk
      exact ⟨hshutdown.trans hrun, hheap ▸ hmem, hheap ▸ hleast, hpos, hnow ▸ hread, le_rfl⟩
    | sleep => exact hshutdown.trans hk
    | pass now expired =>
      obtain ⟨popped, rest, hp, hbefore⟩ := hk
      exact ⟨popped, rest, hpasses.trans hp, hheap ▸ hbefore⟩
    | passed now expired =>
      obtain ⟨⟨popped, rest, hp⟩, hlater⟩ := hk
      exact ⟨⟨popped, rest, hpasses.trans hp⟩, hheap ▸ hlater⟩
    | _ => trivial
  · have hnot : s'.condvar ≠ some false := by
      rw [hcondvar]
      cases s.condvar <;> simp
    rw [hfree] at hl
    cases t with
    | waiting timed =>
      cases timed with
      | none | some => exact fun hcalm => absurd hcalm hnot
    | check | pass | passed | recheck | sleep | waitFor => cases hl
    | _ => trivial

end

/-! ## All runs -/

section
variable [DecidableEq ι] {deadline : κ → Option ℕ} {now : ℕ} {c c' : TimerConfig κ W ι}

/-- A step keeps the invariant. -/
theorem TimerInv.step {a : TimerAct κ ⊕ ι × TimerCallerAct κ W} (hI : TimerInv c)
    (hst : (timerMachine W ι deadline now).step c a = some c') : TimerInv c' := by
  obtain ⟨hlocked, hcondvar, honce, hpasses, hknows⟩ := hI
  rcases timerMachine_step hst with ⟨b, s', m', -, h, rfl⟩ | ⟨i, b, s', m', -, h, rfl⟩
  · refine ⟨h.locked hlocked, h.condvar hcondvar, fun e => ?_, h.passes hknows hpasses,
      h.knows hknows hcondvar⟩
    obtain ⟨hentered, hcount⟩ := h.once hknows e
    rw [hcount, hentered]
    exact honce e
  · obtain ⟨hl, hp, hn⟩ := h.keeps
    refine ⟨hl.trans hlocked, ?_, fun e => ?_, ?_, h.knows hlocked hknows⟩
    · rcases h.driver with ⟨-, -, -, hc⟩ | ⟨-, hc, -⟩
      · exact (congrArg Option.isSome hc).trans hcondvar
      · exact (congrArg Option.isSome hc).trans (Option.isSome_map.trans hcondvar)
    · change s'.heap.count e + (s'.passes.flatMap Prod.snd).count e = s'.entered.count e
      have := honce e
      rw [hp]
      rcases h.driver with ⟨hheap, hentered, -⟩ |
        ⟨-, -, ⟨hheap, hentered⟩ | ⟨other, hheap, hentered⟩⟩
      · rwa [hheap, hentered]
      · rwa [hheap, hentered]
      · rw [hheap, hentered, List.count_cons, List.count_cons]
        omega
    · change ∀ p ∈ s'.passes, PassSound s'.now p
      rw [hp, hn]
      exact hpasses

/-- A run keeps the invariant. -/
theorem reachable_timerInv (h : (timerMachine W ι deadline now).Reachable anyStep c) :
    TimerInv c := by
  refine h.invariant ⟨rfl, rfl, fun _ => rfl, nofun, trivial⟩ ?_
  intro _ _ _ hI _ hst
  exact hI.step hst

omit [DecidableEq κ] in
/-- Where the ids of the entries of a pass are distinct, they came out in the strict order of their
keys. -/
theorem PassSound.strict {clock : ℕ} {p : ℕ × List (TimerEntry κ)} (h : PassSound clock p)
    (hids : (p.2.map TimerEntry.id).Nodup) : p.2.Pairwise fun e other => e.key < other.key := by
  have hne : p.2.Pairwise fun e other => e.id ≠ other.id := List.pairwise_map.1 hids
  refine (h.ordered.and hne).imp ?_
  rintro e other ⟨hle, hid⟩
  refine lt_of_le_of_ne hle fun heq => hid ?_
  exact congrArg (fun key => (ofLex key).2) heq

end

/-- A timer loop that fires every entry once, in order, never early, and does not oversleep. -/
structure TimerFaithful (c : TimerConfig κ W ι) : Prop where
  /-- Every registered entry was popped at most once, and otherwise is in the heap. -/
  once : ∀ e, (c.shared.passes.flatMap Prod.snd).count e + c.shared.heap.count e =
    c.shared.entered.count e
  /-- What a pass has popped was due at the `now` of the pass, and came out in order, strictly so
  where the ids differ (they are counted on 64 bits). -/
  passes : ∀ p ∈ c.shared.passes, PassSound c.shared.now p ∧
    ((p.2.map TimerEntry.id).Nodup → p.2.Pairwise fun e other => e.key < other.key)
  /-- A pass leaves nothing that was due at its `now`. -/
  drained : ∀ now expired, c.timer = .passed now expired → ∀ e ∈ c.shared.heap, now < e.deadline
  /-- While the timer thread waits, not notified and not shut down, the heap is empty and the wait
  has no timeout, or the timeout was computed from an entry with the smallest deadline of the heap.
  -/
  sleeps : ∀ timed, c.timer = .waiting timed → c.shared.condvar = some false →
    c.shared.shutdown = false →
      timed = none ∧ c.shared.heap = [] ∨ ∃ t, timed = some t ∧ t.Earliest c.shared

/-- The timer loop is faithful in every run. -/
theorem timer_loop_faithful [DecidableEq ι] {deadline : κ → Option ℕ} {now : ℕ}
    {c : TimerConfig κ W ι} (h : (timerMachine W ι deadline now).Reachable anyStep c) :
    TimerFaithful c := by
  have hI : TimerInv c := reachable_timerInv h
  have hknows := hI.knows
  refine ⟨fun e => (Nat.add_comm _ _).trans (hI.once e), fun p hp => ?_, ?_, ?_⟩
  · exact ⟨hI.passes p hp, (hI.passes p hp).strict⟩
  · intro now expired hpassed
    rw [hpassed] at hknows
    exact hknows.2
  · intro timed hwaiting hcalm hrun
    rw [hwaiting] at hknows
    cases timed with
    | none => exact .inl ⟨rfl, hknows hcalm hrun⟩
    | some t => exact .inr ⟨t, rfl, hknows hcalm hrun⟩

/-- Two entries are registered; the timer thread pops the earlier one and waits for the later one,
when an earlier one comes and notifies it. -/
def registerWhileAsleep : List (TimerAct Unit ⊕ Unit × TimerCallerAct Unit Unit) :=
  [.inr ((), .register () 9), .inr ((), .go), .inr ((), .register () 3), .inr ((), .go),
    .inr ((), .write () (some ())), .inl (.tick 4), .inl .go, .inl .go, .inl (.peek ⟨3, 2, ()⟩),
    .inl (.peek ⟨9, 1, ()⟩), .inl .go, .inl .go, .inl .go, .inl .go, .inl .go,
    .inl (.peek ⟨9, 1, ()⟩), .inl .go, .inr ((), .register () 6), .inr ((), .go)]

/-- The loop is faithful in that run, at the end of which the timer thread is notified. -/
theorem timer_loop_faithful_asleep :
    ∃ c, (timerMachine Unit Unit (fun _ => none) 0).run
        (timerMachine Unit Unit (fun _ => none) 0).init
        registerWhileAsleep = some c ∧ c.shared.condvar = some true ∧ TimerFaithful c := by
  have hrun : (timerMachine Unit Unit (fun _ => none) 0).run
      (timerMachine Unit Unit (fun _ => none) 0).init registerWhileAsleep = some _ := rfl
  exact ⟨_, hrun, rfl, timer_loop_faithful (reach_of_run _ hrun)⟩

end Hypertile
