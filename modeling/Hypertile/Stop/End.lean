import Hypertile.Park.Measure
import Hypertile.Stop.Join

/-!
# A stopped runtime comes to its end

Once `running` has been stored, the threads cannot take steps of their own for ever, though the park
has no timeout: each such step brings a thread closer to its end (`StopThread.phase`), or shortens
what it goes through (`StopThread.width`), or is one of a search for an idle worker, which takes
workers off the idle stack (`ProducerPc.small`). And as long as a worker has not ended or a call has
not returned some thread can go on (`stopped_of_stuck`): a lock is held by a thread that can go on,
a parked worker has a token or is about to get one, and the one call that joins waits for another
thread. So tasks that finish are all that `shutdown` waits for (`shutdown_ends`).
-/

namespace Hypertile

open Machine Machine.Threads

variable {ω π H : Type}

/-- A step that a thread takes of its own: no new task, no new call, and no park that ends without a
token. -/
def StopLabel.own : StopLabel H → Bool
  | .park a => a.own
  | .call _ | .timeout => false
  | _ => true

/-! ## The measure -/

/-- How far a worker is from the head of the loop, at which it leaves. -/
def LoopPc.phase : LoopPc ω H → ℕ
  | .top => 6
  | .register | .run _ .top => 7
  | .drain n => 7 + 2 * (16 - n)
  | .run _ (.drain n) => 8 + 2 * (16 - n)
  | .unmarkCount .. => 8
  | .unmark _ => 9
  | .park => 10
  | .recheck => 11
  | .markCount => 12
  | .mark => 13
  | .spin n => 14 + 2 * (32 - n)
  | .spinInjector n => 15 + 2 * (31 - n)
  | .find pc => 79 + pc.phase

/-- How far a thread in no call is from its end. -/
def StopPc.phase : StopPc ω H → ℕ
  | .loop _ pc => pc.phase
  | .deregister => 5
  | .deregisterIdle => 4
  | .deregisterCount _ => 3
  | .flush | .inject _ => 2
  | .unparkOneIdle _ => 1
  | .ended | .producer _ => 0

/-- How far a call is from its return. -/
def StopCallPc.phase : StopCallPc ω → ℕ
  | .store _ => 6
  | .unparkAll _ => 5
  | .unparkEach .. => 4
  | .takeThreads | .wait => 3
  | .join .. => 2
  | .count => 1

/-- The workers that a call has still to go through. -/
def StopCallPc.width : StopCallPc ω → ℕ
  | .unparkEach _ rest | .join rest _ => rest.length
  | _ => 0

/-- What a thread that flushes its deque or searches its peers has still to go through. -/
def StopPc.width (i : ω ⊕ π) (s : Parking ω H) : StopPc ω H → ℕ
  | .loop _ (.find pc) => pc.width
  | .flush | .inject _ => i.elim (fun w => (s.deque w).length) fun _ => 0
  | _ => 0

/-- The search for an idle worker that the thread is in. -/
def StopPc.small : StopPc ω H → ℕ
  | .inject pc | .unparkOneIdle pc | .producer pc => pc.small
  | _ => 0

namespace StopThread

/-- How far a thread is from its end. -/
def phase (t : StopThread ω H) : ℕ := t.pc.phase + t.call.elim 0 StopCallPc.phase

/-- What a thread has still to go through. -/
def width (i : ω ⊕ π) (s : Parking ω H) (t : StopThread ω H) : ℕ :=
  t.pc.width i s + t.call.elim 0 StopCallPc.width

end StopThread

section
variable [Fintype ω] [Fintype π]

/-- The measure of a configuration. -/
def stopMeasure (c : StopConfig ω π H) : ℕ × ℕ × ℕ :=
  (∑ i, (c.loc i).phase, ∑ i, (c.loc i).width i c.shared.park,
    3 * c.shared.park.idleStack.length + ∑ i, (c.loc i).pc.small)

end

/-! ## Each step lowers the measure -/

variable [DecidableEq ω]

omit [DecidableEq ω] in
/-- After `unmark_idle` a worker is close to the head of the loop. -/
theorem phase_afterUnmark (task : Option H) : (afterUnmark (ω := ω) task).phase ≤ 7 := by
  cases task <;> simp [afterUnmark, LoopPc.phase]

/-- A step of a worker in `run_loop` brings it closer to the head of the loop, or leaves the queues
and shortens its search. -/
theorem LoopTrans.lower {s q : Parking ω H} {w : ω} {pc pc' : LoopPc ω H} {a : ParkLabel H}
    (h : LoopTrans s w pc a q pc') (hown : a.own = true) :
    pc'.phase < pc.phase ∨ pc'.phase = pc.phase ∧ q = s ∧
      ∃ fpc fpc', pc = .find fpc ∧ pc' = .find fpc' ∧ fpc'.width < fpc.width := by
  cases h with
  | findNext hnext =>
    rcases hnext.lower with hlt | ⟨heq, hlt⟩
    · exact .inl (Nat.add_lt_add_left hlt 79)
    · exact .inr ⟨congrArg (79 + ·) heq, rfl, _, _, rfl, rfl, hlt⟩
  | peersSelf => exact .inr ⟨rfl, rfl, _, _, rfl, rfl, by simp [FindPc.width]⟩
  | spawn => cases hown
  | @finish task next =>
    left
    cases next <;> simp [AfterRun.pc, LoopPc.phase]
  | @unmarkNone task | @unmarkCount task =>
    exact .inl ((phase_afterUnmark task).trans_lt (by simp [LoopPc.phase]))
  | _ =>
    left
    simp only [LoopPc.phase, FindPc.phase]
    omega

variable [DecidableEq π]

/-- What a step does to the measure: it lowers the contribution of its thread in one place, and
leaves all else in the places before. -/
def Lowers (i : ω ⊕ π) (s s' : Parking ω H) (t t' : StopThread ω H) : Prop :=
  t'.phase < t.phase ∨
    t'.phase = t.phase ∧ (∀ j (u : StopThread ω H), j ≠ i → u.width j s' = u.width j s) ∧
      (t'.width i s' < t.width i s ∨ t'.width i s' = t.width i s ∧
        3 * s'.idleStack.length + t'.pc.small < 3 * s.idleStack.length + t.pc.small)

section
variable {i : ω ⊕ π} {s s' : Stopping ω π H} {t t' : StopThread ω H} {a : StopLabel H}

omit [DecidableEq ω] [DecidableEq π] in
/-- After `set_running` a call is closer to its return. -/
theorem phase_next (kind : StopKind) :
    kind.next.elim 0 (StopCallPc.phase (ω := ω)) < 4 := by
  cases kind <;> simp [StopKind.next, StopCallPc.phase]

/-- A step of a call lowers the measure. -/
theorem StopCallTrans.lowers {call : StopCallPc ω} {call' : Option (StopCallPc ω)}
    (h : StopCallTrans i s call a s' call') (pc : StopPc ω H) :
    Lowers i s.park s'.park ⟨pc, some call⟩ ⟨pc, call'⟩ := by
  cases h with
  | unpark => exact .inr ⟨rfl, fun _ _ _ => rfl, .inl (by simp [StopThread.width, StopPc.width,
      StopCallPc.width, Stopping.unpark])⟩
  | join => exact .inr ⟨rfl, fun _ _ _ => rfl, .inl (by simp [StopThread.width, StopPc.width,
      StopCallPc.width, Stopping.emit])⟩
  | unparked => exact .inl (Nat.add_lt_add_left (phase_next _) _)
  | _ => exact .inl (Nat.add_lt_add_left (by simp [StopCallPc.phase]) _)

omit [DecidableEq π] in
/-- A step of a search for an idle worker lowers the measure, unless the thread comes closer to its
end. -/
theorem lowers_producer {pc pc' : ProducerPc ω H} {p p' : StopPc ω H} {a : ParkLabel H}
    {q : Parking ω H} (hst : producerStep s.park pc a = some (q, pc'))
    (hown : a.own = true) (hphase : p'.phase = p.phase)
    (hwidth : ∀ s : Parking ω H, p'.width i s = p.width i s) (hsmall : p.small = pc.small)
    (hsmall' : p'.small = pc'.small) :
    Lowers i s.park q ⟨p, none⟩ ⟨p', none⟩ := by
  have hdeque := (Parking.producerKeeps hst).deque
  have hsame : ∀ (j : ω ⊕ π) (u : StopPc ω H), u.width j q = u.width j s.park := by
    intro j u
    cases u <;> simp [StopPc.width, hdeque]
  refine .inr ⟨congrArg (· + 0) hphase, fun j u _ => congrArg (· + _) (hsame j u.pc), .inr ⟨?_, ?_⟩⟩
  · exact congrArg (· + 0) ((hwidth q).trans (hsame i p))
  · show 3 * q.idleStack.length + p'.small < 3 * s.park.idleStack.length + p.small
    rw [hsmall, hsmall']
    exact producerStep_lower hst hown

omit [DecidableEq π] in
/-- A step of a thread in no call lowers the measure, where the core is stopped. -/
theorem StopOwnTrans.lowers {pc pc' : StopPc ω H} (h : StopOwnTrans s i pc a s' pc')
    (hrun : s.running = false) (hown : a.own = true) :
    Lowers i s.park s'.park ⟨pc, none⟩ ⟨pc', none⟩ := by
  cases h with
  | head hr =>
    rw [hrun] at hr
    cases hr
  | timeout => cases hown
  | loop hst =>
    rcases (loopStep_cases hst).lower hown with hlt | ⟨heq, rfl, fpc, fpc', rfl, rfl, hlt⟩
    · exact .inl hlt
    · exact .inr ⟨heq, fun _ _ _ => rfl, .inl hlt⟩
  | @flush w task rest hdeque =>
    refine .inr ⟨rfl, fun j u hj => ?_, .inl ?_⟩
    · obtain ⟨p, call⟩ := u
      cases j with
      | inr => cases p <;> rfl
      | inl v =>
        have hne : v ≠ w := fun heq => hj (by rw [heq])
        cases p <;>
          simp [StopThread.width, StopPc.width, Parking.setDeque, Function.update_of_ne hne]
    · simp [StopThread.width, StopPc.width, Parking.setDeque, hdeque]
  | inject hst =>
    obtain ⟨q, hq, rfl⟩ := Stopping.producerStep_some hst
    exact lowers_producer hq hown rfl (fun _ => rfl) rfl rfl
  | injected hst =>
    obtain ⟨q, hq, rfl⟩ := Stopping.producerStep_some hst
    exact lowers_producer hq hown rfl (fun _ => rfl) rfl rfl
  | unparkOneIdle hst =>
    obtain ⟨q, hq, rfl⟩ := Stopping.producerStep_some hst
    exact lowers_producer hq hown rfl (fun _ => rfl) rfl rfl
  | producer hst =>
    obtain ⟨q, hq, rfl⟩ := Stopping.producerStep_some hst
    exact lowers_producer hq hown rfl (fun _ => rfl) rfl rfl
  | _ => exact .inl (by simp [StopThread.phase, StopPc.phase, LoopPc.phase])

/-- A step lowers the measure, where the core is stopped. -/
theorem StopTrans.lowers (h : StopTrans i s t a s' t') (hrun : s.running = false)
    (hown : a.own = true) : Lowers i s.park s'.park t t' := by
  cases h with
  | begin => cases hown
  | @call pc _ _ _ _ hc => exact hc.lowers pc
  | own ho => exact ho.lowers hrun hown

end

variable {pool : List ω} {c : StopConfig ω π H}
  {G : StopConfig ω π H → (ω ⊕ π) × StopLabel H → Prop}

/-- A step of a thread of its own. -/
def ownStep (_ : StopConfig ω π H) (a : (ω ⊕ π) × StopLabel H) : Prop := a.2.own = true

section
variable [Fintype ω] [Fintype π]

/-- What lowers the contribution of the thread that moves lowers the measure. -/
theorem Lowers.lex {i : ω ⊕ π} {s' : Stopping ω π H} {t' : StopThread ω H}
    (h : Lowers i c.shared.park s'.park (c.loc i) t') :
    Machine.lex (stopMeasure ⟨s', Function.update c.loc i t'⟩) (stopMeasure c) := by
  let phases : ω ⊕ π → StopThread ω H → ℕ := fun _ t => t.phase
  let widths : Parking ω H → ω ⊕ π → StopThread ω H → ℕ := fun s j t => t.width j s
  refine lex_iff.2 ?_
  rcases h with hphase | ⟨hphase, hother, hrest⟩
  · exact .inl (sum_update_lt phases phases (fun _ _ => rfl) hphase)
  · refine .inr ⟨sum_update_eq phases phases (fun _ _ => rfl) hphase, ?_⟩
    have hwidths : ∀ j, j ≠ i → widths s'.park j (c.loc j) = widths c.shared.park j (c.loc j) :=
      fun j hj => hother j _ hj
    rcases hrest with hwidth | ⟨hwidth, hsmall⟩
    · exact .inl (sum_update_lt _ _ hwidths hwidth)
    · refine .inr ⟨sum_update_eq _ _ hwidths hwidth, ?_⟩
      have hsum := sum_update (Finset.mem_univ i) (fun _ (t : StopThread ω H) => t.pc.small)
        c.loc t'
      simp only [stopMeasure]
      omega

/-- Once the core is stopped the threads cannot take steps of their own for ever. -/
theorem ends_of_stopped (hrun : c.shared.running = false) : (stopMachine pool).Ends ownStep c := by
  refine Ends.of_measure (I := fun c => c.shared.running = false) lex_wf stopMeasure ?_ hrun
  rintro c ⟨i, a⟩ c' hrun hown hst
  obtain ⟨s', t', hp, rfl⟩ := step_iff.1 hst
  have ht := stopStep_trans hp
  exact ⟨ht.stopped hrun, (ht.lowers hrun hown).lex⟩

end

/-! ## Some thread can go on -/

section
variable {s : Stopping ω π H} {a : StopLabel H}

/-- The thread can take a step of its own. -/
def CanStep (i : ω ⊕ π) (s : Stopping ω π H) (t : StopThread ω H) : Prop :=
  ∃ a : StopLabel H, a.own = true ∧ (stopStep i s t a).isSome = true

/-- A step of the call that a thread is in is one of the thread. -/
theorem CanStep.call {i : ω ⊕ π} {pc : StopPc ω H} {call : StopCallPc ω} (hown : a.own = true)
    (h : (stopCallStep i s call a).isSome = true) : CanStep i s ⟨pc, some call⟩ :=
  ⟨a, hown, by simpa [stopStep] using h⟩

/-- A step of a thread in no call. -/
theorem CanStep.own {i : ω ⊕ π} {pc : StopPc ω H} (hown : a.own = true)
    (h : (stopOwnStep i s pc a).isSome = true) : CanStep i s ⟨pc, none⟩ := by
  refine ⟨a, hown, ?_⟩
  cases a with
  | call => cases hown
  | _ => simpa [stopStep] using h

/-- A step of a worker in `run_loop`, past its registration and not at the head. -/
theorem CanStep.loop {w : ω} {n : ℕ} {pc : LoopPc ω H} {a : ParkLabel H}
    (hown : a.own = true) (hreg : pc ≠ .register)
    (h : (loopStep s.park w pc a).isSome = true) : CanStep (.inl w) s ⟨.loop n pc, none⟩ := by
  refine .own (a := .park a) hown ?_
  have htop : pc ≠ .top := by
    rintro rfl
    cases a <;> cases h
  simp only [stopOwnStep, stopWorkerStep]
  split <;> simp_all

/-- A call goes on, unless it waits for a worker thread to end. -/
theorem canStep_call (i : ω ⊕ π) (pc : StopPc ω H) (call : StopCallPc ω)
    (hfree : s.writing = false) :
    CanStep i s ⟨pc, some call⟩ ∨
      ∃ w rest taken, call = .join (w :: rest) taken ∧ s.ended w = false := by
  cases call with
  | store | takeThreads => exact .inl (.call (a := .park .go) rfl rfl)
  | unparkAll | count =>
    exact .inl (.call (a := .park .go) rfl (by simp [stopCallStep, hfree]))
  | unparkEach kind rest => cases rest <;> exact .inl (.call (a := .park .go) rfl rfl)
  | wait => exact .inl (.call (a := .deadline) rfl rfl)
  | join rest taken =>
    cases rest with
    | nil => exact .inl (.call (a := .park .go) rfl rfl)
    | cons w rest =>
      cases hended : s.ended w with
      | true => exact .inl (.call (a := .park .go) rfl (by simp [stopCallStep, hended]))
      | false => exact .inr ⟨w, rest, taken, rfl, hended⟩

omit [DecidableEq π] in
/-- A search for an idle worker goes on. -/
theorem producerStep_isSome {pc : ProducerPc ω H} (hlocked : s.park.locked = false)
    (hfree : s.writing = false) (hpc : pc ≠ .idle) : (s.producerStep pc .go).isSome = true := by
  cases pc with
  | idle => exact absurd rfl hpc
  | _ => simp [Stopping.producerStep, producerStep, hfree, hlocked]

/-- A worker in `run_loop` goes on, unless it is parked without a token. -/
theorem canStep_loop (w : ω) (n : ℕ) (pc : LoopPc ω H) (hlocked : s.park.locked = false)
    (hfree : s.writing = false) (hread : s.readers = 0) :
    CanStep (.inl w) s ⟨.loop n pc, none⟩ ∨ pc = .park ∧ s.park.token w = false := by
  by_cases htop : pc = .top
  · subst htop
    exact .inl (.own (a := .park .go) rfl rfl)
  · by_cases hreg : pc = .register
    · subst hreg
      exact .inl (.own (a := .park .go) rfl (by simp [stopOwnStep, stopWorkerStep, hfree, hread]))
    · exact (loopStep_enabled w hlocked htop).imp_left fun ⟨a, hown, hsome⟩ => .loop hown hreg hsome

end

/-- A thread in the `inject` or `unpark_one_idle` of its guard is in the middle of it. -/
def StopPc.InSearch : StopPc ω H → Prop
  | .inject pc | .unparkOneIdle pc => pc ≠ .idle
  | _ => True

/-- A thread in the `inject` or `unpark_one_idle` of its guard is in the middle of it. -/
theorem reachable_inSearch (h : (stopMachine pool).Reachable G c) (j : ω ⊕ π) :
    (c.loc j).pc.InSearch := by
  refine stop_local (L := fun _ _ t => t.pc.InSearch) h ?_ ?_ ?_ j
  · intro j
    cases j <;> trivial
  · intro i s t a s' t' hL ht
    cases ht with
    | begin | call => exact hL
    | own ho =>
      cases ho with
      | inject _ hpc | unparkOneIdle _ hpc => exact hpc
      | flushed | flush => simp [StopPc.InSearch]
      | _ => trivial
  · intro i s t a s' t' j u _ _ hL
    exact hL

/-- Where no step is enabled, no thread can go on. -/
theorem not_canStep (hstuck : (stopMachine pool).Stuck ownStep c) (i : ω ⊕ π) :
    ¬ CanStep i c.shared (c.loc i) := by
  rintro ⟨a, hown, hsome⟩
  obtain ⟨⟨s', t'⟩, hst⟩ := Option.isSome_iff_exists.1 hsome
  have hnone := hstuck (i, a) hown
  rw [show (stopMachine pool).step c (i, a) = some ⟨s', Function.update c.loc i t'⟩ from
    step_iff.2 ⟨s', t', hst, rfl⟩] at hnone
  cases hnone

/-- A thread at a place where no call can be made is in none. -/
theorem call_none (h : (stopMachine pool).Reachable G c) {i : ω ⊕ π}
    (hmay : (c.loc i).pc.mayCall = false) : c.loc i = ⟨(c.loc i).pc, none⟩ := by
  rcases hc : c.loc i with ⟨pc, call⟩
  cases call with
  | none => rfl
  | some call =>
    have := reachable_mayCall h i (by simp [hc])
    rw [hmay] at this
    cases this

omit [DecidableEq ω] [DecidableEq π] in
/-- Where a call can be made, no lock is held. -/
theorem locks_of_mayCall {pc : StopPc ω H} (h : pc.mayCall = true) :
    pc.locksIdle = false ∧ pc.locksWorkers = false := by
  unfold StopPc.mayCall at h
  split at h
  · exact ⟨rfl, rfl⟩
  · exact ⟨rfl, rfl⟩
  · cases h

/-- Whoever holds the lock of `idle_stack` goes on. -/
theorem canStep_locksIdle {i : ω ⊕ π} {s : Stopping ω π H} {pc : StopPc ω H}
    (hlocks : pc.locksIdle = true) (hworker : pc.isWorker = i.isLeft) : CanStep i s ⟨pc, none⟩ := by
  cases i with
  | inl w =>
    cases pc with
    | loop n pc =>
      cases pc with
      | markCount | unmarkCount => exact .loop (a := .go) rfl (by simp) rfl
      | _ => cases hlocks
    | deregisterCount removed => exact .own (a := .park .go) rfl rfl
    | inject pc | unparkOneIdle pc =>
      cases pc with
      | popCount => exact .own (a := .park .go) rfl rfl
      | _ => cases hlocks
    | producer => cases hworker
    | _ => cases hlocks
  | inr i =>
    cases pc with
    | producer pc =>
      cases pc with
      | popCount => exact .own (a := .park .go) rfl rfl
      | _ => cases hlocks
    | _ => cases hworker

section
variable (h : (stopMachine pool).Reachable G c) (hstuck : (stopMachine pool).Stuck ownStep c)
include h hstuck

/-- Where no thread can go on, nobody holds the lock of `idle_stack`. -/
theorem stuck_idleLocked : c.shared.park.locked = false := by
  refine Bool.eq_false_iff.2 fun hl => ?_
  obtain ⟨i, hi⟩ := reachable_idleLocked h hl
  have hmay : (c.loc i).pc.mayCall = false := Bool.eq_false_iff.2 fun hm => by
    rw [(locks_of_mayCall hm).1] at hi
    cases hi
  refine not_canStep hstuck i ?_
  rw [call_none h hmay]
  exact canStep_locksIdle hi (reachable_stopIsWorker h i)

/-- Where no thread can go on, nobody holds the lock of `workers` for writing. -/
theorem stuck_writing : c.shared.writing = false := by
  refine Bool.eq_false_iff.2 fun hl => ?_
  have hlocked := stuck_idleLocked h hstuck
  obtain ⟨i, hi⟩ := reachable_writing h hl
  have hmay : (c.loc i).pc.mayCall = false := Bool.eq_false_iff.2 fun hm => by
    rw [(locks_of_mayCall hm).2] at hi
    cases hi
  refine not_canStep hstuck i ?_
  rw [call_none h hmay]
  have hworker := reachable_stopIsWorker h i
  revert hi hworker
  generalize (c.loc i).pc = pc
  intro hi hworker
  cases i with
  | inl w =>
    cases pc with
    | deregisterIdle =>
      exact .own (a := .park .go) rfl (by simp [stopOwnStep, stopWorkerStep, hlocked])
    | deregisterCount removed => exact .own (a := .park .go) rfl rfl
    | _ => cases hi
  | inr i =>
    cases pc with
    | deregisterIdle | deregisterCount => cases hworker
    | _ => cases hi

/-- Where no thread can go on, each call waits for a worker thread that has not ended. -/
theorem stuck_call {i : ω ⊕ π} {call : StopCallPc ω} (hcall : (c.loc i).call = some call) :
    ∃ w rest taken, call = .join (w :: rest) taken ∧ c.shared.ended w = false := by
  rcases canStep_call i (c.loc i).pc call (stuck_writing h hstuck) with hstep | hjoin
  · refine absurd ?_ (not_canStep hstuck i)
    rw [show c.loc i = ⟨(c.loc i).pc, some call⟩ by rw [← hcall]]
    exact hstep
  · exact hjoin

variable [Fintype ω] [Fintype π]

/-- Where no thread can go on, nobody holds the lock of `workers` for reading. -/
theorem stuck_readers : c.shared.readers = 0 := by
  rw [reachable_readers h]
  refine Finset.sum_eq_zero fun i _ => ?_
  have hno : (c.loc i).readsWorkers ≠ true := by
    intro hreads
    rcases hc : (c.loc i).call with _ | call
    · simp [StopThread.readsWorkers, hc] at hreads
    · obtain ⟨w, rest, taken, rfl, -⟩ := stuck_call h hstuck hc
      simp [StopThread.readsWorkers, hc] at hreads
  rw [Bool.eq_false_iff.2 hno]
  rfl

omit [Fintype ω] [Fintype π] in
/-- Where no thread of a stopped core can go on, a parked worker has a token. -/
theorem stuck_not_parked (hrun : c.shared.running = false) {w : ω} {n : ℕ}
    (hpark : (c.loc (.inl w)).pc = .loop n .park) : c.shared.park.token w = true := by
  have hmay : (c.loc (.inl w)).mayPark = true := by simp [StopThread.mayPark, hpark, LoopPc.mayPark]
  rcases reachable_alerted h w hmay with hr | ht | ⟨i, hi⟩
  · rw [hrun] at hr
    cases hr
  · exact ht
  · rcases hc : (c.loc i).call with _ | call
    · simp [StopThread.unparks, hc] at hi
    · obtain ⟨v, rest, taken, rfl, -⟩ := stuck_call h hstuck hc
      simp [StopThread.unparks, hc] at hi

/-- Where no thread of a stopped core can go on, a worker in no call has ended. -/
theorem stuck_worker (hrun : c.shared.running = false) {w : ω}
    (hcall : (c.loc (.inl w)).call = none) : (c.loc (.inl w)).pc = .ended := by
  have hno := not_canStep hstuck (.inl w)
  have hlocked := stuck_idleLocked h hstuck
  have hwriting := stuck_writing h hstuck
  have hreaders := stuck_readers h hstuck
  have hworker := reachable_stopIsWorker h (.inl w)
  have hsearch := reachable_inSearch h (.inl w)
  have hparked : ∀ n, (c.loc (.inl w)).pc = .loop n .park → c.shared.park.token w = true :=
    fun n => stuck_not_parked h hstuck hrun
  rcases hc : c.loc (.inl w) with ⟨pc, call⟩
  rw [hc] at hno hworker hsearch hparked hcall
  cases hcall
  cases pc with
  | ended => rfl
  | producer => cases hworker
  | loop n pc =>
    rcases canStep_loop w n pc hlocked hwriting hreaders with hstep | ⟨rfl, htoken⟩
    · exact absurd hstep hno
    · rw [hparked n rfl] at htoken
      cases htoken
  | deregister =>
    exact absurd (.own (a := .park .go) rfl
      (by simp [stopOwnStep, stopWorkerStep, hwriting, hreaders])) hno
  | deregisterIdle =>
    exact absurd (.own (a := .park .go) rfl
      (by simp [stopOwnStep, stopWorkerStep, hlocked])) hno
  | deregisterCount | flush => exact absurd (.own (a := .park .go) rfl rfl) hno
  | inject pc | unparkOneIdle pc =>
    exact absurd (.own (a := .park .go) rfl (by
      simpa [stopOwnStep, stopWorkerStep] using producerStep_isSome hlocked hwriting hsearch)) hno

/-- Where no thread of a stopped core can go on, no call is under way. -/
theorem stuck_call_none (hrun : c.shared.running = false) (i : ω ⊕ π) :
    (c.loc i).call = none := by
  refine Option.eq_none_iff_forall_ne_some.2 fun call hcall => ?_
  obtain ⟨w, rest, taken, rfl, hended⟩ := stuck_call h hstuck hcall
  have hjoins : (c.loc i).joins = w :: rest := by simp [StopThread.joins, hcall]
  have hself := ((reachable_joinOk h i _ _ hcall).2.1 w List.mem_cons_self).2
  -- the thread that is waited for waits for another, so it would be a second one that joins
  rcases hw : (c.loc (.inl w)).call with _ | call
  · have hend := (reachable_ended h w).2 (stuck_worker h hstuck hrun hw)
    rw [hended] at hend
    cases hend
  · obtain ⟨v, rest', taken', rfl, -⟩ := stuck_call h hstuck hw
    have hjoins' : (c.loc (.inl w)).joins = v :: rest' := by simp [StopThread.joins, hw]
    exact hself (joiner_unique h (by simp [hjoins']) (by simp [hjoins]))

end

/-- All worker threads have ended, and the other threads are between two calls. -/
structure Stopped (c : StopConfig ω π H) : Prop where
  workers (w : ω) : c.loc (.inl w) = ⟨.ended, none⟩
  others (i : π) : c.loc (.inr i) = ⟨.producer .idle, none⟩

section
variable [Fintype ω] [Fintype π]

/-- Where no thread of a stopped core can go on, all have come to their end. -/
theorem stopped_of_stuck (h : (stopMachine pool).Reachable G c)
    (hstuck : (stopMachine pool).Stuck ownStep c) (hrun : c.shared.running = false) :
    Stopped c where
  workers w := by
    have hcall := stuck_call_none h hstuck hrun (.inl w)
    have hpc := stuck_worker h hstuck hrun hcall
    rcases hc : c.loc (.inl w) with ⟨pc, call⟩
    rw [hc] at hcall hpc
    cases hcall
    cases hpc
    rfl
  others i := by
    have hcall := stuck_call_none h hstuck hrun (.inr i)
    have hworker := reachable_stopIsWorker h (.inr i)
    have hno := not_canStep hstuck (.inr i)
    rcases hc : c.loc (.inr i) with ⟨pc, call⟩
    rw [hc] at hcall hworker hno
    cases hcall
    cases pc with
    | producer pc =>
      by_cases hpc : pc = .idle
      · rw [hpc]
      · have hsome := producerStep_isSome (stuck_idleLocked h hstuck) (stuck_writing h hstuck) hpc
        exact absurd (.own (a := .park .go) rfl (by simpa [stopOwnStep] using hsome)) hno
    | _ => cases hworker

/-- A run from a stopped core in which no thread can go on at the end has come to the end. -/
theorem stopped_of_reach {c' : StopConfig ω π H} (h : (stopMachine pool).Reachable anyStep c)
    (hrun : c.shared.running = false) (hreach : (stopMachine pool).Reach ownStep c c')
    (hstuck : (stopMachine pool).Stuck ownStep c') : Stopped c' := by
  have hrun' : c'.shared.running = false := by
    refine hreach.invariant (I := fun c => c.shared.running = false) hrun ?_
    rintro c ⟨i, a⟩ c' hr _ hst
    obtain ⟨s', t', hp, rfl⟩ := step_iff.1 hst
    exact (stopStep_trans hp).stopped hr
  exact stopped_of_stuck (h.trans (hreach.mono fun _ _ _ => trivial)) hstuck hrun'

/-- A runtime that is stopped comes to its end, whatever the interleaving and without the timeout of
the park: the threads cannot take steps of their own for ever, and when none of them can take one
any more every worker thread has ended and every call has returned. -/
theorem shutdown_ends (h : (stopMachine pool).Reachable anyStep c)
    (hrun : c.shared.running = false) :
    (stopMachine pool).Ends ownStep c ∧
      ∀ c', (stopMachine pool).Reach ownStep c c' → (stopMachine pool).Stuck ownStep c' →
        Stopped c' :=
  ⟨ends_of_stopped hrun, fun _ hreach hstuck => stopped_of_reach h hrun hreach hstuck⟩

/-- So every run of a stopped runtime can be carried on to its end. -/
theorem exists_stopped (h : (stopMachine pool).Reachable anyStep c)
    (hrun : c.shared.running = false) :
    ∃ c', (stopMachine pool).Reach ownStep c c' ∧ Stopped c' := by
  obtain ⟨c', hreach, hstuck⟩ := (ends_of_stopped hrun).exists_last
  exact ⟨c', hreach, stopped_of_reach h hrun hreach hstuck⟩

end

/-- A worker that finds nothing and parks, and a thread that then stores `running`. -/
def parkedRun : List ((Unit ⊕ Unit) × StopLabel ℕ) :=
  List.replicate 2 (.inl (), .park .go) ++
  List.replicate 3 (.inl (), .park (.attempt (.batch 0))) ++ [(.inl (), .park (.start 0))] ++
  (List.replicate 32 [(.inl (), .park .go), (.inl (), .park (.attempt (.batch 0)))]).flatten ++
  List.replicate 3 (.inl (), .park .go) ++
  [(.inl (), .park (.attempt (.batch 0))), (.inr (), .call .shutdown), (.inr (), .park .go)]

/-- The worker is parked without a token when the core is stopped, and comes to its end. -/
theorem shutdown_ends_parked :
    ∃ c, (stopMachine [()]).run (stopMachine [()]).init parkedRun = some c ∧
      c.loc (.inl ()) = ⟨.loop 1 .park, none⟩ ∧ c.shared.park.token () = false ∧
      (stopMachine [()]).Ends ownStep c :=
  ⟨_, rfl, rfl, rfl, (shutdown_ends (Machine.reach_of_run parkedRun rfl) rfl).1⟩

end Hypertile
