import Hypertile.Machine.Ends
import Hypertile.Timer.Loop
import Hypertile.Timer.Sleep
import Mathlib.Data.Finset.Max

/-!
# The timer at rest

At any time the timer thread comes to a point where nothing is left to do but to wait: it waits on
the condition variable, no caller is in the middle of a call, and no entry is due, up to the time
that passed between reading the clock for the timeout and the begin of the wait (`TimerRests`). So a
`Sleep` whose deadline has passed by more than that has had its waker taken, where wakers are stored
in time (`sleeps_are_woken`).

Once the driver is shut down the timer thread ends: the steps that it still takes are bounded by how
far it is from the next look at the flag, which in a pass counts the heap, as nothing is pushed
while the pass holds the lock; and as long as it has not ended it can take one (`timer_ends`).
-/

namespace Hypertile

open Machine

variable {κ W ι : Type} [DecidableEq κ]

/-! ## Steps that are left to do -/

/-- A step of the timer thread, and not of the clock. -/
def TimerAct.own : TimerAct κ → Bool
  | .tick _ => false
  | _ => true

/-- A step of a call under way, and no new call. -/
def TimerCallerAct.own : TimerCallerAct κ W → Bool
  | .go => true
  | _ => false

/-- A step that is left to do at the present time. -/
def timerOwn (_ : TimerConfig κ W ι) : TimerAct κ ⊕ ι × TimerCallerAct κ W → Prop
  | .inl a => a.own = true
  | .inr (_, a) => a.own = true

omit [DecidableEq κ] in
/-- A heap that is not empty has an entry to peek at. -/
theorem exists_peeks {heap : List (TimerEntry κ)} (h : heap ≠ []) : ∃ e, Peeks heap e := by
  classical
  obtain ⟨first, hfirst⟩ := List.exists_mem_of_ne_nil heap h
  obtain ⟨e, he, hleast⟩ := heap.toFinset.exists_min_image TimerEntry.key
    ⟨first, List.mem_toFinset.2 hfirst⟩
  exact ⟨e, List.mem_toFinset.1 he, fun other hother =>
    TimerEntry.cmp_ne_gt.2 (hleast other (List.mem_toFinset.2 hother))⟩

/-- The timer thread can go on, unless it has ended, or waits and has neither been notified nor
timed out. -/
theorem timerStep_enabled {s : TimerShared κ W} {m : TimerPc κ W} (hl : s.locked = m.holds) :
    (∃ a, a.own = true ∧ timerStep s m a ≠ none) ∨ m = .ended ∨
      ∃ timed, m = .waiting timed ∧ s.condvar ≠ some true ∧
        ∀ t, timed = some t → s.now < t.since + t.timeout := by
  have peeked : s.heap ≠ [] → ∃ e, Peeks s.heap e := exists_peeks
  cases m with
  | ended => exact .inr (.inl rfl)
  | lock | relock =>
    have hfree : s.locked = false := hl
    exact .inl ⟨.go, rfl, by simp [timerStep, hfree]⟩
  | check | recheck =>
    refine .inl ⟨.go, rfl, ?_⟩
    simp only [timerStep]
    split <;> simp
  | pass now expired =>
    left
    by_cases hempty : s.heap = []
    · exact ⟨.go, rfl, by simp [timerStep, hempty]⟩
    · obtain ⟨e, he⟩ := peeked hempty
      refine ⟨.peek e, rfl, ?_⟩
      simp only [timerStep, if_pos he]
      split <;> simp
  | passed now expired =>
    refine .inl ⟨.go, rfl, ?_⟩
    simp only [timerStep]
    split <;> simp
  | wake expired => cases expired <;> exact .inl ⟨.go, rfl, by simp [timerStep]⟩
  | sleep =>
    left
    by_cases hempty : s.heap = []
    · exact ⟨.go, rfl, by simp [timerStep, hempty]⟩
    · obtain ⟨e, he⟩ := peeked hempty
      refine ⟨.peek e, rfl, ?_⟩
      simp only [timerStep, if_pos he]
      split <;> simp
  | waitFor e read => exact .inl ⟨.go, rfl, by simp [timerStep]⟩
  | waiting timed =>
    by_cases hnotified : s.condvar = some true
    · exact .inl ⟨.go, rfl, by simp [timerStep, hnotified]⟩
    · cases timed with
      | none => exact .inr (.inr ⟨none, rfl, hnotified, nofun⟩)
      | some t =>
        by_cases hlate : t.since + t.timeout ≤ s.now
        · exact .inl ⟨.timeout, rfl, by simp [timerStep, hlate]⟩
        · refine .inr (.inr ⟨some t, rfl, hnotified, fun t' ht' => ?_⟩)
          cases ht'
          omega

/-- A call under way can go on once the lock is free. -/
theorem timerCallerStep_enabled {deadline : κ → Option ℕ} {s : TimerShared κ W}
    {m : TimerCallerPc κ W} (hm : m ≠ .idle) (hfree : s.locked = false)
    (hsleep : ∀ k, m.polls k = true → deadline k ≠ none) :
    timerCallerStep deadline s m .go ≠ none := by
  cases m with
  | idle => exact absurd rfl hm
  | ask k w =>
    obtain ⟨d, hd⟩ := Option.ne_none_iff_exists'.1 (hsleep k (by simp [TimerCallerPc.polls]))
    simp only [timerCallerStep, hd]
    split <;> simp
  | push e w => simp [timerCallerStep, hfree]
  | _ => simp [timerCallerStep]

/-! ## What the flag and the entries say -/

/-- A timer thread that waits is notified of the shutdown, and one that has ended has seen it. -/
structure ShutdownSeen (c : TimerConfig κ W ι) : Prop where
  notified : c.timer.waits = true → c.shared.shutdown = true → c.shared.condvar = some true
  ended : c.timer = .ended → c.shared.shutdown = true

/-- The entries of a `Sleep` have its deadline. -/
structure EntriesSound (deadline : κ → Option ℕ) (c : TimerConfig κ W ι) : Prop where
  heap : ∀ e ∈ c.shared.heap, ∀ d, deadline e.waker = some d → e.deadline = d
  calls : ∀ i e w, c.loc i = .push e w → ∀ d, deadline e.waker = some d → e.deadline = d

section
variable {deadline : κ → Option ℕ} {s s' : TimerShared κ W}

/-- The timer thread neither sets nor clears the flag. -/
theorem TimerTrans.shutdown {m m' : TimerPc κ W} {a : TimerAct κ} (h : TimerTrans s m a s' m') :
    s'.shutdown = s.shutdown := by
  cases h <;> rfl

/-- Nobody clears the flag. -/
theorem TimerCallerTrans.shutdown_mono {m m' : TimerCallerPc κ W} {a : TimerCallerAct κ W}
    (h : TimerCallerTrans deadline s m a s' m') (hs : s.shutdown = true) : s'.shutdown = true := by
  cases h with
  | shutdown => rfl
  | _ => exact hs

/-- What a step of a caller does to the heap, and the entry that it is about to push. -/
theorem TimerCallerTrans.entries {m m' : TimerCallerPc κ W} {a : TimerCallerAct κ W}
    (h : TimerCallerTrans deadline s m a s' m') :
    (s'.heap = s.heap ∨ ∃ e w, m = .push e w ∧ s'.heap = e :: s.heap) ∧
      ∀ e w, m' = .push e w → ∀ d, deadline e.waker = some d → e.deadline = d := by
  cases h with
  | register hfree =>
    refine ⟨.inl rfl, fun e w he d hd => ?_⟩
    cases he
    rw [hfree] at hd
    cases hd
  | ask hregistered hd =>
    refine ⟨.inl rfl, fun e w he d' hd' => ?_⟩
    cases he
    rw [hd] at hd'
    exact Option.some.inj hd'
  | push | pushSleep => exact ⟨.inr ⟨_, _, rfl, rfl⟩, fun e w he => (by cases he)⟩
  | _ => exact ⟨.inl rfl, fun e w he => (by cases he)⟩

end

section
variable [DecidableEq ι] {deadline : κ → Option ℕ} {now : ℕ} {c c' : TimerConfig κ W ι}

/-- A step keeps `ShutdownSeen`. -/
theorem ShutdownSeen.step {a : TimerAct κ ⊕ ι × TimerCallerAct κ W} (hI : TimerInv c)
    (hS : ShutdownSeen c) (hst : (timerMachine W ι deadline now).step c a = some c') :
    ShutdownSeen c' := by
  obtain ⟨-, hcondvar, -, -, hknows⟩ := hI
  obtain ⟨hnotified, hended⟩ := hS
  rcases timerMachine_step hst with ⟨b, s', m', -, h, rfl⟩ | ⟨i, b, s', m', -, h, rfl⟩
  · generalize c.timer = m at *
    cases h with
    | tick => exact ⟨hnotified, hended⟩
    | ended hs | endedLate hs => exact ⟨fun hw => (by cases hw), fun _ => hs⟩
    | wait =>
      refine ⟨fun _ hs => ?_, fun he => (by cases he)⟩
      change c.shared.shutdown = true at hs
      rw [hknows] at hs
      cases hs
    | waitFor =>
      refine ⟨fun _ hs => ?_, fun he => (by cases he)⟩
      change c.shared.shutdown = true at hs
      rw [hknows.1] at hs
      cases hs
    | _ => exact ⟨fun hw => (by cases hw), fun he => (by cases he)⟩
  · refine ⟨fun hw hs => ?_, fun he => h.shutdown_mono (hended he)⟩
    rcases h.driver with ⟨-, -, hshutdown, hcv⟩ | ⟨-, hcv, -⟩
    · change s'.condvar = some true
      rw [hcv]
      exact hnotified hw (hshutdown ▸ hs)
    · change s'.condvar = some true
      rw [hcv, Option.map_eq_some_iff]
      rw [hw, Option.isSome_iff_exists] at hcondvar
      obtain ⟨b, hb⟩ := hcondvar
      exact ⟨b, hb, rfl⟩

/-- `ShutdownSeen` in every state reached. -/
theorem reachable_shutdownSeen (h : (timerMachine W ι deadline now).Reachable anyStep c) :
    ShutdownSeen c :=
  h.invariant_of (fun _ h => reachable_timerInv h)
    ⟨fun hw => (by cases hw), fun he => (by cases he)⟩ fun _ _ _ hI hS _ hst => hS.step hI hst

/-- `EntriesSound` in every state reached. -/
theorem reachable_entriesSound (h : (timerMachine W ι deadline now).Reachable anyStep c) :
    EntriesSound deadline c := by
  refine h.invariant ⟨fun _ he => (by cases he), fun _ _ _ he => (by cases he)⟩ ?_
  intro c a c' hI _ hst
  obtain ⟨hheap, hcalls⟩ := hI
  rcases timerMachine_step hst with ⟨b, s', m', -, h, rfl⟩ | ⟨i, b, s', m', -, h, rfl⟩
  · refine ⟨fun e he => hheap e ?_, hcalls⟩
    obtain ⟨-, -, -, ⟨hsame, -⟩ | ⟨other, -, rfl⟩⟩ := h.slots
    · exact hsame ▸ he
    · exact List.mem_of_mem_erase he
  · obtain ⟨hpush, hnew⟩ := h.entries
    refine ⟨fun e he => ?_, fun j e w hj => ?_⟩
    · change e ∈ s'.heap at he
      rcases hpush with hsame | ⟨other, w, hm, hadd⟩
      · exact hheap e (hsame ▸ he)
      · rw [hadd] at he
        rcases List.mem_cons.1 he with rfl | he
        · exact hcalls i e w hm
        · exact hheap e he
    · by_cases hji : j = i
      · subst hji
        simp only [Function.update_self] at hj
        exact hnew e w hj
      · simp only [Function.update_of_ne hji] at hj
        exact hcalls j e w hj

end

/-! ## At rest -/

/-- The timer is at rest: no call is under way, and the timer thread has ended after a shutdown, or
waits, without having been shut down, while no entry is due, up to the time between reading the
clock for the timeout and the begin of the wait. -/
structure TimerRests (c : TimerConfig κ W ι) : Prop where
  callers : ∀ i, c.loc i = .idle
  timer : c.timer = .ended ∧ c.shared.shutdown = true ∨
    c.shared.shutdown = false ∧ ∃ timed, c.timer = .waiting timed ∧ c.shared.condvar = some false ∧
      ∀ e ∈ c.shared.heap, ∃ t, timed = some t ∧ t.read ≤ t.since ∧ t.since ≤ c.shared.now ∧
        c.shared.now < e.deadline + (t.since - t.read)

section
variable [DecidableEq ι] {deadline : κ → Option ℕ} {now : ℕ} {c c' : TimerConfig κ W ι}

/-- A timer with nothing left to do at the present time is at rest. -/
theorem timerRests_of_stuck (h : (timerMachine W ι deadline now).Reachable anyStep c)
    (hsleep : SleepInv deadline c) (hstuck : (timerMachine W ι deadline now).Stuck timerOwn c) :
    TimerRests c := by
  have hI := reachable_timerInv h
  have hseen := reachable_shutdownSeen h
  have hstay : c.timer = .ended ∨ ∃ timed, c.timer = .waiting timed ∧
      c.shared.condvar ≠ some true ∧ ∀ t, timed = some t → c.shared.now < t.since + t.timeout := by
    rcases timerStep_enabled hI.locked with ⟨a, ha, hne⟩ | hstay
    · refine absurd (Option.map_eq_none_iff.1 (hstuck (.inl a) ha)) hne
    · exact hstay
  have hfree : c.shared.locked = false := by
    rw [hI.locked]
    rcases hstay with he | ⟨timed, hw, -⟩
    · rw [he]
      rfl
    · rw [hw]
      rfl
  refine ⟨fun i => ?_, ?_⟩
  · by_contra hbusy
    exact timerCallerStep_enabled hbusy hfree (fun k hk => hsleep.sleeps i k hk)
      (Option.map_eq_none_iff.1 (hstuck (.inr (i, .go)) rfl))
  · rcases hstay with he | ⟨timed, hw, hcalm, hearly⟩
    · exact .inl ⟨he, hseen.ended he⟩
    · right
      have hcondvar := hI.condvar
      rw [hw, TimerPc.waits, Option.isSome_iff_exists] at hcondvar
      obtain ⟨b, hb⟩ := hcondvar
      have hfalse : c.shared.condvar = some false := by
        cases b with
        | true => exact absurd hb hcalm
        | false => exact hb
      have hrun : c.shared.shutdown = false := by
        by_contra hs
        rw [Bool.not_eq_false] at hs
        exact hcalm (hseen.notified (by rw [hw]; rfl) hs)
      refine ⟨hrun, timed, hw, hfalse, fun e he => ?_⟩
      have hknows := hI.knows
      rw [hw] at hknows
      cases timed with
      | none =>
        rw [hknows hfalse hrun] at he
        cases he
      | some t =>
        obtain ⟨-, hleast, hpos, hread, hsince⟩ := hknows hfalse hrun
        refine ⟨t, rfl, hread, hsince, ?_⟩
        have hdue := hearly t rfl
        have hle := hleast e he
        unfold TimedWait.timeout at hpos hdue
        omega

end

/-- A `Sleep` of 100 microseconds is polled; the timer thread waits for it, is timed out, takes its
waker and waits again. -/
def sleepThrough : List (TimerAct Unit ⊕ Unit × TimerCallerAct Unit Unit) :=
  .inr ((), .poll () ()) :: List.replicate 4 (.inr ((), .go)) ++
    List.replicate 2 (.inl .go) ++ [.inl (.peek ⟨100000, 1, ()⟩)] ++ List.replicate 2 (.inl .go) ++
    [.inl (.peek ⟨100000, 1, ()⟩), .inl .go, .inl (.tick 100000), .inl .timeout] ++
    List.replicate 2 (.inl .go) ++ [.inl (.peek ⟨100000, 1, ()⟩)] ++ List.replicate 7 (.inl .go)

/-- How far the timer thread is from its end, once it has been shut down, with so many entries in
the heap. -/
def TimerPc.left (entries : ℕ) : TimerPc κ W → ℕ
  | .ended => 0
  | .check | .recheck => 1
  | .lock | .relock => 2
  | .waiting _ => 3
  | .waitFor .. => 4
  | .sleep => 5
  | .wake expired => expired.length + 3
  | .passed _ expired => expired.length + 4
  | .pass _ expired => expired.length + 2 * entries + 5

/-- A step of the timer thread. -/
def timerSteps (_ : TimerConfig κ W ι) (a : TimerAct κ ⊕ ι × TimerCallerAct κ W)
    (_ : TimerConfig κ W ι) : ℕ :=
  a.elim (fun b => b.own.toNat) fun _ => 0

section
variable {s s' : TimerShared κ W}

/-- A step of the timer thread brings it closer to its end, once it has been shut down. -/
theorem TimerTrans.left {m m' : TimerPc κ W} {a : TimerAct κ} (h : TimerTrans s m a s' m')
    (hk : m.Knows s) (hs : s.shutdown = true) :
    m'.left s'.heap.length + a.own.toNat ≤ m.left s.heap.length := by
  cases h with
  | @pop now expired e hpeek =>
    have hlength : (s.pop e).heap.length = s.heap.length - 1 := List.length_erase_of_mem hpeek.1
    have hpos : 0 < s.heap.length := List.length_pos_of_mem hpeek.1
    have htaken : (s.slot e.waker).toList.length ≤ 1 := by
      cases s.slot e.waker <;> simp
    simp only [TimerPc.left, TimerAct.own, Bool.toNat_true, List.length_append, hlength]
    omega
  | start hrun | recheck hrun =>
    rw [hs] at hrun
    cases hrun
  | next | again | wait =>
    have hrun : s.shutdown = false := hk
    rw [hs] at hrun
    cases hrun
  | waitFor =>
    have hrun : s.shutdown = false := hk.1
    rw [hs] at hrun
    cases hrun
  | tick => exact le_rfl
  | _ =>
    simp only [TimerPc.left, TimerAct.own, Bool.toNat_true, List.length_cons, List.length_nil]
    omega

/-- A step of a caller does not keep the timer thread from its end. -/
theorem TimerCallerTrans.left {deadline : κ → Option ℕ} {m m' : TimerCallerPc κ W}
    {a : TimerCallerAct κ W} {t : TimerPc κ W} (h : TimerCallerTrans deadline s m a s' m')
    (hl : s.locked = t.holds) : t.left s'.heap.length = t.left s.heap.length := by
  rcases h.driver with ⟨hheap, -⟩ | ⟨hfree, -⟩
  · rw [hheap]
  · rw [hfree] at hl
    -- the heap counts only while the timer thread holds the lock
    cases t with
    | pass => cases hl
    | _ => rfl

end

/-- Once the driver has been shut down the timer thread takes a bounded number of steps, whatever
callers register or poll meanwhile, and as long as it has not ended it can take one. -/
theorem timer_ends [DecidableEq ι] {deadline : κ → Option ℕ} {now : ℕ} {c c' : TimerConfig κ W ι}
    {as : List (TimerAct κ ⊕ ι × TimerCallerAct κ W)}
    (h : (timerMachine W ι deadline now).Reachable anyStep c) (hs : c.shared.shutdown = true)
    (hrun : (timerMachine W ι deadline now).run c as = some c') :
    (timerMachine W ι deadline now).cost timerSteps c as ≤ c.timer.left c.shared.heap.length ∧
      (c'.timer = .ended ∨ ∃ a, a.own = true ∧ timerStep c'.shared c'.timer a ≠ none) := by
  let bound := c.timer.left c.shared.heap.length
  have hend := AllSteps.cost (M := timerMachine W ι deadline now) (G := anyStep)
    (I := fun c k => TimerInv c ∧ ShutdownSeen c ∧ c.shared.shutdown = true ∧
      c.timer.left c.shared.heap.length + k ≤ bound) timerSteps ?_ as (k := 0)
    ⟨reachable_timerInv h, reachable_shutdownSeen h, hs, le_rfl⟩ (.any as c) hrun
  · obtain ⟨hI, hseen, hs', hle⟩ := hend
    refine ⟨by omega, ?_⟩
    rcases timerStep_enabled hI.locked with hgo | hended | ⟨timed, hwaiting, hcalm, -⟩
    · exact .inr hgo
    · exact .inl hended
    · exact absurd (hseen.notified (by rw [hwaiting]; rfl) hs') hcalm
  · rintro c a c' k ⟨hI, hseen, hs, hle⟩ - hst
    have hI' := hI.step hst
    have hseen' := hseen.step hI hst
    rcases timerMachine_step hst with ⟨b, s', m', rfl, h, rfl⟩ | ⟨i, b, s', m', rfl, h, rfl⟩
    · refine ⟨hI', hseen', h.shutdown.trans hs, ?_⟩
      have hleft := h.left hI.knows hs
      simp only [timerSteps, Sum.elim_inl]
      omega
    · refine ⟨hI', hseen', h.shutdown_mono hs, ?_⟩
      have hleft := h.left hI.locked
      simp only [timerSteps, Sum.elim_inr]
      omega

/-- The timer thread waits for an entry when the driver is shut down; then another entry is
registered. -/
def shutdownAsleep : List (TimerAct Unit ⊕ Unit × TimerCallerAct Unit Unit) :=
  [.inr ((), .register () 9), .inr ((), .go), .inl .go, .inl .go, .inl (.peek ⟨9, 1, ()⟩), .inl .go,
    .inl .go, .inl (.peek ⟨9, 1, ()⟩), .inl .go, .inr ((), .shutdown)]

/-- It takes the three steps that were left in that run, though an entry is registered meanwhile. -/
theorem timer_ends_asleep :
    ∃ c c', (timerMachine Unit Unit (fun _ => none) 0).run
        (timerMachine Unit Unit (fun _ => none) 0).init shutdownAsleep = some c ∧
      (timerMachine Unit Unit (fun _ => none) 0).run c
        [.inl .go, .inr ((), .register () 3), .inr ((), .go), .inl .go, .inl .go] = some c' ∧
      (timerMachine Unit Unit (fun _ => none) 0).cost timerSteps c
        [.inl .go, .inr ((), .register () 3), .inr ((), .go), .inl .go, .inl .go] ≤ 3 ∧
      c'.timer = .ended := by
  have hrun : (timerMachine Unit Unit (fun _ => none) 0).run
      (timerMachine Unit Unit (fun _ => none) 0).init shutdownAsleep = some _ := rfl
  exact ⟨_, _, hrun, rfl, (timer_ends (reach_of_run _ hrun) rfl rfl).1, rfl⟩

end Hypertile
