import Hypertile.Task.Cell

/-!
# The atomic steps of a task

`CallTrans` lists the atomic steps of the calls on a task, one constructor for each way a step of
the code can go, and `callStep_trans` reads a step of `callStep` back as one of them. Every
invariant of the task is proved by cases on it, so that no later proof unfolds a step function.
-/

namespace Hypertile

variable {ι F T P W : Type}

/-- `CallTrans i s pc a s' pc'`: the call `i` at `pc` can take the step `a` from the shared state
`s`, to `s'` and `pc'`. -/
inductive CallTrans (i : ι) (s : Shared ι F T P W) :
    Pc F T P W → Label F T P W → Shared ι F T P W → Pc F T P W → Prop
  | runQueued (hq : 0 < s.queued) :
      CallTrans i s .idle .runQueued { s with queued := s.queued - 1 } (.run .claim)
  | runClone : CallTrans i s .idle .runClone s (.run .claim)
  | injectClone : CallTrans i s .idle .injectClone { s with queued := s.queued + 1 } .idle
  | wakeCall : CallTrans i s .idle .wake s (.wake .load)
  | cancelCall : CallTrans i s .idle .cancel s (.cancel .swap)
  | joinCall {w : W} (hb : s.joinBorrowed = false) :
      CallTrans i s .idle (.pollJoin w) { s with joinBorrowed := true } (.join (.lock w))
  | claim (hs : s.cell.state = .scheduled) :
      CallTrans i s (.run .claim) .go { s with cell.state := .running } (.run .take)
  | claimLost (hs : s.cell.state ≠ .scheduled) : CallTrans i s (.run .claim) .go s .idle
  | take {fut : F} (hf : s.cell.future = some fut) :
      CallTrans i s (.run .take) .go ({ s with cell.future := none }.emit (.pollBegan i))
        (.run (.poll fut))
  | takeEmpty (hf : s.cell.future = none) : CallTrans i s (.run .take) .go s .idle
  | pollReady {f fut : F} {v : T} :
      CallTrans i s (.run (.poll f)) (.polled fut (.ready v)) (s.emit (.pollEnded i (.ready v)))
        (.run (.drop fut (.ok v)))
  | pollPending {f fut : F} :
      CallTrans i s (.run (.poll f)) (.polled fut .pending) (s.emit (.pollEnded i .pending))
        (.run (.putBack fut))
  | pollPanicked {f fut : F} {p : P} :
      CallTrans i s (.run (.poll f)) (.polled fut (.panicked p))
        (s.emit (.pollEnded i (.panicked p))) (.run (.drop fut (.error (.panicked p))))
  | putBack {fut : F} (hf : s.cell.future = none) :
      CallTrans i s (.run (.putBack fut)) .go { s with cell.future := some fut } (.run .load)
  | putBackOver {f fut : F} (hf : s.cell.future = some f) :
      CallTrans i s (.run (.putBack fut)) .go
        ({ s with cell.future := some fut }.emit (.futureDropped i)) (.run .load)
  | runLoadCompleted (hs : s.cell.state = .completed) :
      CallTrans i s (.run .load) .go s (.run .clear)
  | runLoadScheduled (hs : s.cell.state = .scheduled) :
      CallTrans i s (.run .load) .go s (.run .requeue)
  | runLoad (hc : s.cell.state ≠ .completed) (hs : s.cell.state ≠ .scheduled) :
      CallTrans i s (.run .load) .go s (.run (.cas s.cell.state))
  | runCas {curr : TaskState} (hs : s.cell.state = curr) :
      CallTrans i s (.run (.cas curr)) .go { s with cell.state := .idle } .idle
  | runCasLost {curr : TaskState} (hs : s.cell.state ≠ curr) :
      CallTrans i s (.run (.cas curr)) .go s (.run .load)
  | runCasWeak {curr : TaskState} :
      CallTrans i s (.run (.cas curr)) .weakFail s (.run .load)
  | runClear {f : F} (hf : s.cell.future = some f) :
      CallTrans i s (.run .clear) .go ({ s with cell.future := none }.emit (.futureDropped i)) .idle
  | runClearEmpty (hf : s.cell.future = none) : CallTrans i s (.run .clear) .go s .idle
  | runClearUnwind {f : F} (hf : s.cell.future = some f) :
      CallTrans i s (.run .clear) .unwind
        (({ s with cell.future := none }.emit (.futureDropped i)).emit (.runUnwound i)) .idle
  | requeue :
      CallTrans i s (.run .requeue) .go ({ s with queued := s.queued + 1 }.emit (.enqueued i)) .idle
  | drop {fut : F} {o : Except (JoinError P) T} :
      CallTrans i s (.run (.drop fut o)) .go (s.emit (.futureDropped i))
        (.run (.complete (.lock o)))
  | dropUnwind {fut : F} {o : Except (JoinError P) T} :
      CallTrans i s (.run (.drop fut o)) .unwind
        ((s.emit (.futureDropped i)).emit (.runUnwound i)) .idle
  | completeLock {o : Except (JoinError P) T} (hl : s.resultLock = false) :
      CallTrans i s (.run (.complete (.lock o))) .go { s with resultLock := true }
        (.run (.complete (.swap o)))
  | completeSwap {o : Except (JoinError P) T} (hs : s.cell.state ≠ .completed) :
      CallTrans i s (.run (.complete (.swap o))) .go
        ({ s with cell.state := .completed }.emit (.completeWon i o))
        (.run (.complete (.publish o)))
  | completeSwapLost {o : Except (JoinError P) T} (hs : s.cell.state = .completed) :
      CallTrans i s (.run (.complete (.swap o))) .go s (.run (.complete .lost))
  | completePublish {o : Except (JoinError P) T} :
      CallTrans i s (.run (.complete (.publish o))) .go
        ({ s with cell.result := some o }.emit (.resultWritten i o)) (.run (.complete .unlock))
  | completeUnlock :
      CallTrans i s (.run (.complete .unlock)) .go { s with resultLock := false }
        (.run (.complete .wakeJoin))
  | completeWakeJoin {w : W} (hw : s.cell.joinWaker = some w) :
      CallTrans i s (.run (.complete .wakeJoin)) .go
        ({ s with cell.joinWaker := none }.emit (.joinWoken w)) .idle
  | completeWakeNone (hw : s.cell.joinWaker = none) :
      CallTrans i s (.run (.complete .wakeJoin)) .go s .idle
  | completeLost :
      CallTrans i s (.run (.complete .lost)) .go { s with resultLock := false } .idle
  | wakeLoadCompleted (hs : s.cell.state = .completed) :
      CallTrans i s (.wake .load) .go s .idle
  | wakeLoadScheduled (hs : s.cell.state = .scheduled) :
      CallTrans i s (.wake .load) .go (s.emit (.wakeTookEffect i)) .idle
  | wakeLoad (hc : s.cell.state ≠ .completed) (hs : s.cell.state ≠ .scheduled) :
      CallTrans i s (.wake .load) .go s (.wake (.cas s.cell.state))
  | wakeCasRunning (hs : s.cell.state = .running) :
      CallTrans i s (.wake (.cas .running)) .go
        ({ s with cell.state := .scheduled }.emit (.wakeTookEffect i)) .idle
  | wakeCas {curr : TaskState} (hs : s.cell.state = curr) (hr : curr ≠ .running) :
      CallTrans i s (.wake (.cas curr)) .go
        ({ s with cell.state := .scheduled }.emit (.wakeTookEffect i)) (.wake .enqueue)
  | wakeCasLost {curr : TaskState} (hs : s.cell.state ≠ curr) :
      CallTrans i s (.wake (.cas curr)) .go s (.wake .load)
  | wakeCasWeak {curr : TaskState} : CallTrans i s (.wake (.cas curr)) .weakFail s (.wake .load)
  | wakeEnqueue :
      CallTrans i s (.wake .enqueue) .go ({ s with queued := s.queued + 1 }.emit (.enqueued i)) .idle
  | cancelSwap (hs : s.cell.state ≠ .completed) :
      CallTrans i s (.cancel .swap) .go ({ s with cell.state := .completed }.emit (.cancelWon i))
        (.cancel .clear)
  | cancelSwapLost (hs : s.cell.state = .completed) : CallTrans i s (.cancel .swap) .go s .idle
  | cancelClear {f : F} (hf : s.cell.future = some f) :
      CallTrans i s (.cancel .clear) .go ({ s with cell.future := none }.emit (.futureDropped i))
        (.cancel .publish)
  | cancelClearEmpty (hf : s.cell.future = none) :
      CallTrans i s (.cancel .clear) .go s (.cancel .publish)
  | cancelClearUnwind {f : F} (hf : s.cell.future = some f) :
      CallTrans i s (.cancel .clear) .unwind
        (({ s with cell.future := none }.emit (.futureDropped i)).emit (.cancelUnwound i)) .idle
  | cancelPublish (hl : s.resultLock = false) :
      CallTrans i s (.cancel .publish) .go
        ({ s with cell.result := some (.error .cancelled) }.emit
          (.resultWritten i (.error .cancelled))) (.cancel .wakeJoin)
  | cancelWakeJoin {w : W} (hw : s.cell.joinWaker = some w) :
      CallTrans i s (.cancel .wakeJoin) .go
        ({ s with cell.joinWaker := none }.emit (.joinWoken w)) .idle
  | cancelWakeNone (hw : s.cell.joinWaker = none) : CallTrans i s (.cancel .wakeJoin) .go s .idle
  | joinLock {w : W} (hl : s.resultLock = false) :
      CallTrans i s (.join (.lock w)) .go { s with resultLock := true } (.join (.take w))
  | joinTake {w : W} {o : Except (JoinError P) T} (hr : s.cell.result = some o) :
      CallTrans i s (.join (.take w)) .go { s with cell.result := none } (.join (.ret (.ready o)))
  | joinTakeEmpty {w : W} (hr : s.cell.result = none) :
      CallTrans i s (.join (.take w)) .go s (.join (.load w))
  | joinLoadCompleted {w : W} (hs : s.cell.state = .completed) :
      CallTrans i s (.join (.load w)) .go s (.join (.ret (.ready (.error .cancelled))))
  | joinLoad {w : W} (hs : s.cell.state ≠ .completed) :
      CallTrans i s (.join (.load w)) .go s (.join (.store w))
  | joinStore {w : W} :
      CallTrans i s (.join (.store w)) .go { s with cell.joinWaker := some w }
        (.join (.ret (.pending w)))
  | joinReturn {r : JoinPoll T P W} :
      CallTrans i s (.join (.ret r)) .go
        ({ s with resultLock := false, joinBorrowed := false }.emit (.joinReturned r)) .idle

namespace Shared

variable {s : Shared ι F T P W} {i : ι} {e : Event ι T P W} {new : Option F}

@[simp] theorem emit_cell : (s.emit e).cell = s.cell := rfl
@[simp] theorem emit_queued : (s.emit e).queued = s.queued := rfl
@[simp] theorem emit_resultLock : (s.emit e).resultLock = s.resultLock := rfl
@[simp] theorem emit_joinBorrowed : (s.emit e).joinBorrowed = s.joinBorrowed := rfl
@[simp] theorem emit_log : (s.emit e).log = e :: s.log := rfl

/-- Overwriting an occupied slot drops what was in it. -/
theorem assignFuture_some {f : F} (hf : s.cell.future = some f) :
    s.assignFuture i new = { s with cell.future := new }.emit (.futureDropped i) := by
  simp [assignFuture, hf]

/-- Overwriting an empty slot drops nothing. -/
theorem assignFuture_none (hf : s.cell.future = none) :
    s.assignFuture i new = { s with cell.future := new } := by
  simp [assignFuture, hf]

/-- Clearing an empty slot changes nothing. -/
theorem clear_none (hf : s.cell.future = none) : s.assignFuture i none = s := by
  rw [assignFuture_none hf, ← hf]

/-- A registered join waker is taken and woken. -/
theorem wakeJoin_some {w : W} (hw : s.cell.joinWaker = some w) :
    s.wakeJoin = { s with cell.joinWaker := none }.emit (.joinWoken w) := by
  simp [wakeJoin, hw]

/-- Without a registered join waker there is nobody to wake. -/
theorem wakeJoin_none (hw : s.cell.joinWaker = none) : s.wakeJoin = s := by
  simp [wakeJoin, hw]

end Shared

section
variable {i : ι} {s s' : Shared ι F T P W} {a : Label F T P W} {pc' : Pc F T P W}

/-- The calls that can be made. -/
theorem startCall_trans (h : startCall s a = some (s', pc')) : CallTrans i s .idle a s' pc' := by
  cases a with
  | runQueued =>
    simp only [startCall] at h
    split at h
    · next hq => cases h; exact .runQueued hq
    · cases h
  | pollJoin w =>
    simp only [startCall] at h
    split at h
    · cases h
    · next hb => cases h; exact .joinCall (by simpa using hb)
  | runClone => cases h; exact .runClone
  | injectClone => cases h; exact .injectClone
  | wake => cases h; exact .wakeCall
  | cancel => cases h; exact .cancelCall
  | go | weakFail | polled | unwind => cases h

/-- The steps of `complete`. -/
theorem completeStep_trans {pc : CompletePc T P} {r : Option (CompletePc T P)}
    (h : TaskCell.completeStep i s pc = some (s', r)) :
    CallTrans i s (.run (.complete pc)) .go s' ((r.map .complete).elim .idle .run) := by
  cases pc with
  | lock o =>
    simp only [TaskCell.completeStep] at h
    split at h
    · cases h
    · next hl => cases h; exact .completeLock (by simpa using hl)
  | swap o =>
    simp only [TaskCell.completeStep] at h
    split at h
    · next hs => cases h; exact .completeSwapLost hs
    · next hs => cases h; exact .completeSwap hs
  | publish o => cases h; exact .completePublish
  | unlock => cases h; exact .completeUnlock
  | wakeJoin =>
    cases h
    cases hw : s.cell.joinWaker with
    | some w => rw [Shared.wakeJoin_some hw]; exact .completeWakeJoin hw
    | none => rw [Shared.wakeJoin_none hw]; exact .completeWakeNone hw
  | lost => cases h; exact .completeLost

/-- The steps of `run`. -/
theorem runStep_trans {pc : RunPc F T P} {r : Option (RunPc F T P)}
    (h : TaskCell.runStep i s pc a = some (s', r)) :
    CallTrans i s (.run pc) a s' (r.elim .idle .run) := by
  unfold TaskCell.runStep at h
  split at h
  · split at h
    · next hs => cases h; exact .claim hs
    · next hs => cases h; exact .claimLost hs
  · split at h
    · next hf => cases h; exact .take hf
    · next hf => cases h; exact .takeEmpty hf
  · next fut r =>
    cases h
    cases r with
    | ready v => exact .pollReady
    | pending => exact .pollPending
    | panicked p => exact .pollPanicked
  · cases h
    cases hf : s.cell.future with
    | some f => rw [Shared.assignFuture_some hf]; exact .putBackOver hf
    | none => rw [Shared.assignFuture_none hf]; exact .putBack hf
  · split at h
    · next hs => cases h; exact .runLoadCompleted hs
    · next hs => cases h; exact .runLoadScheduled hs
    · next hc hs => cases h; exact .runLoad hc hs
  · split at h
    · next hs => cases h; exact .runCas hs
    · next hs => cases h; exact .runCasLost hs
  · cases h; exact .runCasWeak
  · cases h
    cases hf : s.cell.future with
    | some f => rw [Shared.assignFuture_some hf]; exact .runClear hf
    | none => rw [Shared.clear_none hf]; exact .runClearEmpty hf
  · split at h
    · next hf =>
      cases h
      obtain ⟨f, hf⟩ := Option.isSome_iff_exists.1 hf
      rw [Shared.assignFuture_some hf]; exact .runClearUnwind hf
    · cases h
  · cases h; exact .requeue
  · cases h; exact .drop
  · cases h; exact .dropUnwind
  · obtain ⟨⟨s₁, r₁⟩, hc, he⟩ := Option.map_eq_some_iff.1 h
    cases he
    exact completeStep_trans hc
  · cases h

/-- The steps of `wake_by_ref`. -/
theorem wakeByRefStep_trans {pc : WakePc} {r : Option WakePc}
    (h : TaskCell.wakeByRefStep i s pc a = some (s', r)) :
    CallTrans i s (.wake pc) a s' (r.elim .idle .wake) := by
  unfold TaskCell.wakeByRefStep at h
  split at h
  · split at h
    · next hs => cases h; exact .wakeLoadCompleted hs
    · next hs => cases h; exact .wakeLoadScheduled hs
    · next hc hs => cases h; exact .wakeLoad hc hs
  · next curr =>
    split at h
    · next hs =>
      cases h
      by_cases hr : curr = .running
      · subst hr; simpa using CallTrans.wakeCasRunning hs
      · simpa [hr] using CallTrans.wakeCas hs hr
    · next hs => cases h; exact .wakeCasLost hs
  · cases h; exact .wakeCasWeak
  · cases h; exact .wakeEnqueue
  · cases h

/-- The steps of `JoinHandle::cancel`. -/
theorem cancelStep_trans {pc : CancelPc} {r : Option CancelPc}
    (h : JoinHandle.cancelStep i s pc a = some (s', r)) :
    CallTrans i s (.cancel pc) a s' (r.elim .idle .cancel) := by
  unfold JoinHandle.cancelStep at h
  split at h
  · split at h
    · next hs => cases h; exact .cancelSwapLost hs
    · next hs => cases h; exact .cancelSwap hs
  · cases h
    cases hf : s.cell.future with
    | some f => rw [Shared.assignFuture_some hf]; exact .cancelClear hf
    | none => rw [Shared.clear_none hf]; exact .cancelClearEmpty hf
  · split at h
    · next hf =>
      cases h
      obtain ⟨f, hf⟩ := Option.isSome_iff_exists.1 hf
      rw [Shared.assignFuture_some hf]; exact .cancelClearUnwind hf
    · cases h
  · split at h
    · cases h
    · next hl => cases h; exact .cancelPublish (by simpa using hl)
  · cases h
    cases hw : s.cell.joinWaker with
    | some w => rw [Shared.wakeJoin_some hw]; exact .cancelWakeJoin hw
    | none => rw [Shared.wakeJoin_none hw]; exact .cancelWakeNone hw
  · cases h

/-- The steps of `JoinHandle::poll`. -/
theorem pollStep_trans {pc : JoinPc T P W} {r : Option (JoinPc T P W)}
    (h : JoinHandle.pollStep s pc = some (s', r)) :
    CallTrans i s (.join pc) .go s' (r.elim .idle .join) := by
  cases pc with
  | lock w =>
    simp only [JoinHandle.pollStep] at h
    split at h
    · cases h
    · next hl => cases h; exact .joinLock (by simpa using hl)
  | take w =>
    simp only [JoinHandle.pollStep] at h
    split at h
    · next hr => cases h; exact .joinTake hr
    · next hr => cases h; exact .joinTakeEmpty hr
  | load w =>
    simp only [JoinHandle.pollStep] at h
    split at h
    · next hs => cases h; exact .joinLoadCompleted hs
    · next hs => cases h; exact .joinLoad hs
  | store w => cases h; exact .joinStore
  | ret r => cases h; exact .joinReturn

/-- Every step of a call is one of the atomic steps. -/
theorem callStep_trans {pc : Pc F T P W} (h : callStep i s pc a = some (s', pc')) :
    CallTrans i s pc a s' pc' := by
  unfold callStep at h
  split at h
  · exact startCall_trans h
  · obtain ⟨⟨s₁, r⟩, hr, he⟩ := Option.map_eq_some_iff.1 h
    cases he; exact runStep_trans hr
  · obtain ⟨⟨s₁, r⟩, hr, he⟩ := Option.map_eq_some_iff.1 h
    cases he; exact wakeByRefStep_trans hr
  · obtain ⟨⟨s₁, r⟩, hr, he⟩ := Option.map_eq_some_iff.1 h
    cases he; exact cancelStep_trans hr
  · split at h
    · obtain ⟨⟨s₁, r⟩, hr, he⟩ := Option.map_eq_some_iff.1 h
      cases he; exact pollStep_trans hr
    · cases h

/-- The invariant rule of the task machine: `J` is already known of every state of the run, `I`
holds of the fresh task and every atomic step that meets the guard keeps it. -/
theorem task_invariant [DecidableEq ι] {fut : F} {c : TaskConfig ι F T P W}
    {G : TaskConfig ι F T P W → ι × Label F T P W → Prop} {I J : TaskConfig ι F T P W → Prop}
    (h : (taskMachine fut).Reachable G c) (hJ : ∀ c, (taskMachine fut).Reachable G c → J c)
    (h₀ : I ⟨Shared.new fut, fun _ => .idle⟩)
    (hstep : ∀ c : TaskConfig ι F T P W, ∀ i a s' pc pc', J c → I c → G c (i, a) → c.loc i = pc →
      CallTrans i c.shared pc a s' pc' → I ⟨s', Function.update c.loc i pc'⟩) : I c :=
  Machine.Threads.invariant h hJ h₀ fun c i a s' pc pc' hJc hI hG hpc hp =>
    hstep c i a s' pc pc' hJc hI hG hpc (callStep_trans hp)

/-- The owner and interference rule of the task machine: the fresh task has `L j` at an idle call
`j`, a step keeps the `L` of its own call, and no step breaks the `L` of another call. -/
theorem task_local [DecidableEq ι] {fut : F} {c : TaskConfig ι F T P W}
    {G : TaskConfig ι F T P W → ι × Label F T P W → Prop} {J : TaskConfig ι F T P W → Prop}
    {L : ι → Shared ι F T P W → Pc F T P W → Prop}
    (h : (taskMachine fut).Reachable G c) (hJ : ∀ c, (taskMachine fut).Reachable G c → J c)
    (h₀ : ∀ j, L j (Shared.new fut) .idle)
    (own : ∀ c : TaskConfig ι F T P W, ∀ i a s' pc pc', J c → G c (i, a) → c.loc i = pc →
      L i c.shared pc → CallTrans i c.shared pc a s' pc' → L i s' pc')
    (other : ∀ c : TaskConfig ι F T P W, ∀ i a s' pc pc' j, J c → G c (i, a) → c.loc i = pc →
      j ≠ i → CallTrans i c.shared pc a s' pc' → L j c.shared (c.loc j) → L j s' (c.loc j))
    (j : ι) : L j c.shared (c.loc j) :=
  Machine.Threads.invariant_local h hJ h₀
    (fun c i a s' pc pc' hJc hG hpc hL hp =>
      own c i a s' pc pc' hJc hG hpc hL (callStep_trans hp))
    (fun c i a s' pc pc' j hJc hG hpc hj hp hL =>
      other c i a s' pc pc' j hJc hG hpc hj (callStep_trans hp) hL) j

end

/-! ## The log -/

/-- How often an event of a kind occurs in a log. -/
def occurrences (kind : Event ι T P W → Bool) (log : List (Event ι T P W)) : ℕ :=
  log.countP kind

@[simp] theorem occurrences_nil (kind : Event ι T P W → Bool) : occurrences kind [] = 0 := rfl

@[simp] theorem occurrences_cons (kind : Event ι T P W → Bool) (e : Event ι T P W)
    (log : List (Event ι T P W)) :
    occurrences kind (e :: log) = (kind e).toNat + occurrences kind log := by
  cases he : kind e <;> simp [occurrences, he, Nat.add_comm]

/-- An event that is in the log occurs in it. -/
theorem occurrences_pos (kind : Event ι T P W → Bool) {log : List (Event ι T P W)}
    {e : Event ι T P W} (he : e ∈ log) (hk : kind e = true) : 0 < occurrences kind log :=
  List.countP_pos_iff.2 ⟨e, he, hk⟩

/-- An event that occurs in the log is in it. -/
theorem exists_of_occurrences_pos {kind : Event ι T P W → Bool} {log : List (Event ι T P W)}
    (h : 0 < occurrences kind log) : ∃ e ∈ log, kind e = true :=
  List.countP_pos_iff.1 h

/-- Two events of a kind that occurs at most once are one event. -/
theorem eq_of_occurrences_le {kind : Event ι T P W → Bool} {log : List (Event ι T P W)}
    (h : occurrences kind log ≤ 1) {e e' : Event ι T P W} (he : e ∈ log) (hk : kind e = true)
    (he' : e' ∈ log) (hk' : kind e' = true) : e = e' := by
  rw [occurrences, List.countP_eq_length_filter] at h
  have hm : e ∈ log.filter kind := List.mem_filter.2 ⟨he, hk⟩
  have hm' : e' ∈ log.filter kind := List.mem_filter.2 ⟨he', hk'⟩
  obtain ⟨x, hx⟩ : ∃ x, log.filter kind = [x] :=
    List.length_eq_one_iff.1 (Nat.le_antisymm h (List.length_pos_of_mem hm))
  rw [hx, List.mem_singleton] at hm hm'
  rw [hm, hm']

/-- A step only adds to the log. -/
theorem CallTrans.log_append {i : ι} {s s' : Shared ι F T P W} {a : Label F T P W}
    {pc pc' : Pc F T P W} (h : CallTrans i s pc a s' pc') : ∃ newer, s'.log = newer ++ s.log := by
  cases h with
  | runClearUnwind | dropUnwind | cancelClearUnwind => exact ⟨[_, _], rfl⟩
  | _ => first | exact ⟨[], rfl⟩ | exact ⟨[_], rfl⟩

/-- What is in the log stays in it. -/
theorem CallTrans.mem_log {i : ι} {s s' : Shared ι F T P W} {a : Label F T P W}
    {pc pc' : Pc F T P W} (h : CallTrans i s pc a s' pc') {e : Event ι T P W} (he : e ∈ s.log) :
    e ∈ s'.log := by
  obtain ⟨newer, hn⟩ := h.log_append
  exact hn ▸ List.mem_append_right newer he

/-! ## The state byte

The loops of `mark_scheduled` and `run` compare-exchange from a value they have loaded and found to
be neither `COMPLETED` nor `SCHEDULED`. Hence nothing leaves `COMPLETED`.
-/

section
variable {i : ι} {s s' : Shared ι F T P W} {a : Label F T P W} {pc pc' : Pc F T P W}

/-- The value that a compare-exchange of one of the loops starts from is `IDLE` or `RUNNING`. -/
def Pc.CasOk : Pc F T P W → Prop
  | .run (.cas curr) | .wake (.cas curr) => curr = .idle ∨ curr = .running
  | _ => True

/-- A state that is neither `COMPLETED` nor `SCHEDULED` is `IDLE` or `RUNNING`. -/
theorem TaskState.idle_or_running {st : TaskState} (hc : st ≠ .completed) (hs : st ≠ .scheduled) :
    st = .idle ∨ st = .running := by
  cases st with
  | idle => exact .inl rfl
  | running => exact .inr rfl
  | scheduled => exact absurd rfl hs
  | completed => exact absurd rfl hc

/-- A step leaves its call at a compare-exchange only right after the load. -/
theorem CallTrans.casOk (h : CallTrans i s pc a s' pc') : pc'.CasOk := by
  cases h with
  | runLoad hc hs | wakeLoad hc hs => exact TaskState.idle_or_running hc hs
  | _ => trivial

/-- In every state reached, the compare-exchanges under way start from `IDLE` or `RUNNING`. -/
theorem reachable_casOk [DecidableEq ι] {fut : F} {c : TaskConfig ι F T P W}
    {G : TaskConfig ι F T P W → ι × Label F T P W → Prop}
    (h : (taskMachine fut).Reachable G c) (j : ι) : (c.loc j).CasOk := by
  exact task_local (J := fun _ => True) (L := fun _ _ pc => pc.CasOk) h (fun _ _ => trivial)
    (fun _ => trivial) (fun _ _ _ _ _ _ _ _ _ _ ht => ht.casOk)
    (fun _ _ _ _ _ _ _ _ _ _ _ _ hj => hj) j

/-- Nothing leaves `COMPLETED`. -/
theorem CallTrans.completed (h : CallTrans i s pc a s' pc') (hpc : pc.CasOk)
    (hs : s.cell.state = .completed) : s'.cell.state = .completed := by
  cases h with
  | claim hs' => rw [hs] at hs'; cases hs'
  | runCas hs' | wakeCas hs' =>
    rw [hs] at hs'; subst hs'
    rcases hpc with hpc | hpc <;> cases hpc
  | wakeCasRunning hs' => rw [hs] at hs'; cases hs'
  | completeSwap | cancelSwap => rfl
  | _ => simpa using hs

end

end Hypertile
