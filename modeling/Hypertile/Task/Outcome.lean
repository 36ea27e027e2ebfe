import Hypertile.Task.Steps

/-!
# The outcome of a task, as its `JoinHandle` sees it

`complete` swaps the state under the result lock, `cancel` swaps it first and takes the lock to
publish later, and `JoinHandle::poll` reads the result, loads the state and stores its waker under
the lock. Three quantities are conserved: whoever moves the state to `COMPLETED` is one of a kind
(`CallTrans.won`), publishes once (`CallTrans.published`), and one call holds the result lock
(`CallTrans.locked`). They carry what is known at each point of `complete`, `cancel` and `poll`.

All of it holds under every interleaving, except that the waker of a pending poll is woken: a future
whose destructor panics unwinds `cancel` before it publishes and wakes, and the waker that was
registered then is never woken. `quietUnwind` is the condition under which that does no harm.
-/

namespace Hypertile

open Machine Machine.Threads

variable {ι F T P W : Type}

/-! ## What the log says of the outcome -/

namespace Event

/-- The event is the one that moves the state to `COMPLETED`. -/
def isWin : Event ι T P W → Bool
  | .completeWon _ _ | .cancelWon _ => true
  | _ => false

/-- The event is a write of the result slot. -/
def isWrite : Event ι T P W → Bool
  | .resultWritten _ _ => true
  | _ => false

/-- The event is a panic that left `cancel`. -/
def isCancelUnwind : Event ι T P W → Bool
  | .cancelUnwound _ => true
  | _ => false

end Event

/-- The outcome that `run` makes of the end of a poll. -/
def PollResult.outcome : PollResult T P → Option (Except (JoinError P) T)
  | .ready output => some (.ok output)
  | .pending => none
  | .panicked payload => some (.error (.panicked payload))

/-- The call `i` moved the state to `COMPLETED`, with this outcome. -/
def WonBy (log : List (Event ι T P W)) (i : ι) (o : Except (JoinError P) T) : Prop :=
  .completeWon i o ∈ log ∨ o = .error .cancelled ∧ .cancelWon i ∈ log

/-- A poll made by the call `i` ended the future with this outcome. -/
def PolledTo (log : List (Event ι T P W)) (i : ι) (o : Except (JoinError P) T) : Prop :=
  ∃ r : PollResult T P, r.outcome = some o ∧ .pollEnded i r ∈ log

/-- The first `Ready` that `JoinHandle::poll` returned, in a log that has the newest event first. -/
def firstReady : List (Event ι T P W) → Option (Except (JoinError P) T)
  | [] => none
  | e :: older => (firstReady older).or (match e with
    | .joinReturned (.ready o) => some o
    | _ => none)

/-- What the last `JoinHandle::poll` returned. -/
def lastReturn : List (Event ι T P W) → Option (JoinPoll T P W)
  | [] => none
  | .joinReturned r :: _ => some r
  | _ :: older => lastReturn older

/-- The waker was woken after the last `JoinHandle::poll` returned. -/
def WokenSince (w : W) : List (Event ι T P W) → Prop
  | [] => False
  | .joinReturned _ :: _ => False
  | .joinWoken w' :: older => w' = w ∨ WokenSince w older
  | _ :: older => WokenSince w older

/-- What stands behind an event of the log: a written result was won by its writer, an outcome that
`complete` won with was polled, and a `cancel` that a panic left had won. -/
def Event.Justified (log : List (Event ι T P W)) : Event ι T P W → Prop
  | .resultWritten i o => WonBy log i o
  | .completeWon i o => PolledTo log i o
  | .cancelUnwound i => .cancelWon i ∈ log
  | _ => True

/-! ## Calls -/

namespace Pc

/-- The call holds the result lock. -/
def inLock : Pc F T P W → Bool
  | .run (.complete (.swap _)) | .run (.complete (.publish _)) | .run (.complete .unlock)
  | .run (.complete .lost) => true
  | .join (.take _) | .join (.load _) | .join (.store _) | .join (.ret _) => true
  | _ => false

/-- The call moved the state to `COMPLETED` and has yet to publish the outcome. -/
def publishes : Pc F T P W → Bool
  | .run (.complete (.publish _)) | .cancel .clear | .cancel .publish => true
  | _ => false

/-- The call moved the state to `COMPLETED` and has yet to wake the `JoinHandle`. -/
def wakesJoin : Pc F T P W → Bool
  | .run (.complete (.publish _)) | .run (.complete .unlock) | .run (.complete .wakeJoin) => true
  | .cancel .clear | .cancel .publish | .cancel .wakeJoin => true
  | _ => false

/-- The call is in `complete` or in `cancel`. -/
def settling : Pc F T P W → Bool
  | .run (.complete _) | .cancel _ => true
  | _ => false

/-- The call is a `JoinHandle::poll` about to return `Ready`. -/
def returnsReady : Pc F T P W → Bool
  | .join (.ret (.ready _)) => true
  | _ => false

/-- The call is a `JoinHandle::poll` that stored its waker and is about to return `Pending`. -/
def returnsPending : Pc F T P W → Bool
  | .join (.ret (.pending _)) => true
  | _ => false

/-- What the log says of the call at its place: `complete` and the drop before it have an outcome
that was polled, and whoever publishes has won. -/
def Placed (log : List (Event ι T P W)) (i : ι) : Pc F T P W → Prop
  | .run (.drop _ o) | .run (.complete (.lock o)) | .run (.complete (.swap o)) => PolledTo log i o
  | .run (.complete (.publish o)) => .completeWon i o ∈ log
  | .cancel .clear | .cancel .publish => .cancelWon i ∈ log
  | .run (.complete .unlock) | .run (.complete .wakeJoin) | .cancel .wakeJoin =>
    ∃ j o, .resultWritten j o ∈ log
  | _ => True

end Pc

/-! ## Conserved quantities -/

section
variable {i : ι} {s s' : Shared ι F T P W} {a : Label F T P W} {pc pc' : Pc F T P W}

/-- One for a task that has not completed. -/
def Shared.open (s : Shared ι F T P W) : ℕ := if s.cell.state = .completed then 0 else 1

@[simp] theorem Shared.emit_open (s : Shared ι F T P W) (e : Event ι T P W) :
    (s.emit e).open = s.open := rfl

/-- A task that has not completed is open. -/
theorem Shared.open_of_ne (hs : s.cell.state ≠ .completed) : s.open = 1 := by
  simp [Shared.open, hs]

/-- A completed task is not open. -/
theorem Shared.open_completed (hs : s.cell.state = .completed) : s.open = 0 := by
  simp [Shared.open, hs]

/-- A step that is neither the swap of `complete` nor that of `cancel` keeps a task open. -/
theorem CallTrans.open_eq (h : CallTrans i s pc a s' pc') (hpc : pc.CasOk)
    (hc : ∀ o, pc ≠ .run (.complete (.swap o))) (hx : pc ≠ .cancel .swap) : s'.open = s.open := by
  cases h with
  | claim hs => simp [Shared.open, hs]
  | runCas hs | wakeCas hs => rcases hpc with hpc | hpc <;> simp [Shared.open, hs, hpc]
  | wakeCasRunning hs => simp [Shared.open, hs]
  | completeSwap => exact absurd rfl (hc _)
  | cancelSwap => exact absurd rfl hx
  | _ => rfl

/-- The state is `COMPLETED` from the one step on that wins. -/
theorem CallTrans.won (h : CallTrans i s pc a s' pc') (hpc : pc.CasOk) :
    s'.open + occurrences Event.isWin s'.log = s.open + occurrences Event.isWin s.log := by
  have hopen := h.open_eq hpc
  cases h with
  | completeSwap hs | cancelSwap hs => simp [Shared.open, Event.isWin, hs]
  | completeSwapLost | cancelSwapLost => rfl
  | _ =>
    have heq := hopen nofun nofun
    simp [Event.isWin] at heq ⊢ <;> omega

/-- The tokens of the shared state for the outcome: one for an open task, one for each write of the
result, one for each panic that left `cancel`. -/
def Shared.outcomeTokens (s : Shared ι F T P W) : ℕ :=
  s.open + occurrences Event.isWrite s.log + occurrences Event.isCancelUnwind s.log

/-- The token of a call that won and has yet to publish. -/
def Pc.outcomeTokens (pc : Pc F T P W) : ℕ := pc.publishes.toNat

/-- Whoever wins writes the result once, or is a `cancel` that a panic leaves. -/
theorem CallTrans.published (h : CallTrans i s pc a s' pc') (hpc : pc.CasOk) :
    s'.outcomeTokens + pc'.outcomeTokens = s.outcomeTokens + pc.outcomeTokens := by
  have hopen := h.open_eq hpc
  unfold Shared.outcomeTokens Pc.outcomeTokens
  cases h with
  | completeSwap hs | cancelSwap hs =>
    simp [Shared.open, Event.isWrite, Event.isCancelUnwind, Pc.publishes, hs]
    omega
  | completeSwapLost | cancelSwapLost => rfl
  | _ =>
    have heq := hopen nofun nofun
    simp [Event.isWrite, Event.isCancelUnwind, Pc.publishes] at heq ⊢ <;> omega

/-- The token of a free result lock. -/
def Shared.lockTokens (s : Shared ι F T P W) : ℕ := (!s.resultLock).toNat

/-- The token of a call that holds the result lock. -/
def Pc.lockTokens (pc : Pc F T P W) : ℕ := pc.inLock.toNat

/-- The result lock is free or held by one call. -/
theorem CallTrans.locked (h : CallTrans i s pc a s' pc')
    (hl : pc.inLock = true → s.resultLock = true) :
    s'.lockTokens + pc'.lockTokens = s.lockTokens + pc.lockTokens := by
  cases h <;> simp_all [Shared.lockTokens, Pc.lockTokens, Pc.inLock]

end

variable [DecidableEq ι] {fut : F} {c : TaskConfig ι F T P W}
  {G : TaskConfig ι F T P W → ι × Label F T P W → Prop}

/-- One winner once the task has completed, none before. -/
theorem reachable_won (h : (taskMachine fut).Reachable G c) :
    c.shared.open + occurrences Event.isWin c.shared.log = 1 := by
  refine task_invariant (I := fun c => c.shared.open + occurrences Event.isWin c.shared.log = 1)
    h (fun _ h => reachable_casOk h) rfl ?_
  rintro c i a s' _ pc' hcas hI _ rfl ht
  exact (ht.won (hcas i)).trans hI

section
variable [Fintype ι]

/-- The winner publishes once. -/
theorem reachable_published (h : (taskMachine fut).Reachable G c) :
    total Shared.outcomeTokens Pc.outcomeTokens c = 1 := by
  refine task_invariant (I := fun c => total Shared.outcomeTokens Pc.outcomeTokens c = 1)
    h (fun _ h => reachable_casOk h) ?_ ?_
  · simp [total, Shared.outcomeTokens, Pc.outcomeTokens, Shared.open, Shared.new, Pc.publishes]
  · rintro c i a s' _ pc' hcas hI _ rfl ht
    exact (total_step (ht.published (hcas i))).trans hI

/-- With one lock token, a call that holds the result lock has locked it. -/
theorem locked_of_total (h : total Shared.lockTokens Pc.lockTokens c = 1) {i : ι}
    (hi : (c.loc i).inLock = true) : c.shared.resultLock = true := by
  have hle := le_total Shared.lockTokens Pc.lockTokens c i
  rw [h] at hle
  cases hl : c.shared.resultLock <;> simp_all [Shared.lockTokens, Pc.lockTokens]

/-- The result lock has one holder or is free. -/
theorem reachable_locked (h : (taskMachine fut).Reachable G c) :
    total Shared.lockTokens Pc.lockTokens c = 1 := by
  refine task_invariant (I := fun c => total Shared.lockTokens Pc.lockTokens c = 1)
    h (fun _ _ => trivial) ?_ ?_
  · simp [total, Shared.lockTokens, Pc.lockTokens, Shared.new, Pc.inLock]
  · rintro c i a s' _ pc' _ hI _ rfl ht
    exact (total_step (ht.locked (locked_of_total hI))).trans hI

/-- A call that holds the result lock has locked it. -/
theorem inLock_locked (h : (taskMachine fut).Reachable G c) {i : ι}
    (hi : (c.loc i).inLock = true) : c.shared.resultLock = true :=
  locked_of_total (reachable_locked h) hi

/-- Two calls that hold the result lock are one call. -/
theorem inLock_unique (h : (taskMachine fut).Reachable G c) {i j : ι}
    (hi : (c.loc i).inLock = true) (hj : (c.loc j).inLock = true) : i = j :=
  holder_unique (reachable_locked h).le (by simp [Pc.lockTokens, hi]) (by simp [Pc.lockTokens, hj])

/-- While the task has not completed nothing has been written, nobody is about to publish, and no
`cancel` was left by a panic. -/
theorem nothing_published (h : (taskMachine fut).Reachable G c)
    (hs : c.shared.cell.state ≠ .completed) (i : ι) :
    occurrences Event.isWrite c.shared.log = 0 ∧
      occurrences Event.isCancelUnwind c.shared.log = 0 ∧ (c.loc i).publishes = false := by
  have hle := le_total Shared.outcomeTokens Pc.outcomeTokens c i
  rw [reachable_published h, Shared.outcomeTokens, Shared.open_of_ne hs, Pc.outcomeTokens] at hle
  refine ⟨by omega, by omega, ?_⟩
  by_contra hp
  rw [Bool.not_eq_false] at hp
  simp [hp] at hle

end

/-! ## What is known at each point -/

section
variable {log log' : List (Event ι T P W)} {i : ι}

omit [DecidableEq ι] in
/-- A poll of the log stays in it. -/
theorem PolledTo.mono {o : Except (JoinError P) T} (h : PolledTo log i o)
    (hsub : ∀ e ∈ log, e ∈ log') : PolledTo log' i o := by
  obtain ⟨r, hr, hm⟩ := h
  exact ⟨r, hr, hsub _ hm⟩

omit [DecidableEq ι] in
/-- A winner of the log stays in it. -/
theorem WonBy.mono {o : Except (JoinError P) T} (h : WonBy log i o)
    (hsub : ∀ e ∈ log, e ∈ log') : WonBy log' i o := by
  rcases h with h | ⟨ho, h⟩
  · exact .inl (hsub _ h)
  · exact .inr ⟨ho, hsub _ h⟩

omit [DecidableEq ι] in
/-- What is known of a call stays known. -/
theorem Pc.Placed.mono {pc : Pc F T P W} (h : pc.Placed log i) (hsub : ∀ e ∈ log, e ∈ log') :
    pc.Placed log' i := by
  unfold Pc.Placed at h ⊢
  split
  case h_1 | h_2 | h_3 => exact PolledTo.mono h hsub
  case h_4 | h_5 | h_6 => exact hsub _ h
  case h_7 | h_8 | h_9 =>
    obtain ⟨j, o, hm⟩ := h
    exact ⟨j, o, hsub _ hm⟩
  case h_10 => trivial

omit [DecidableEq ι] in
/-- What stands behind an event stays behind it. -/
theorem Event.Justified.mono {e : Event ι T P W} (h : e.Justified log)
    (hsub : ∀ e ∈ log, e ∈ log') : e.Justified log' := by
  unfold Event.Justified at h ⊢
  split
  case h_1 => exact WonBy.mono h hsub
  case h_2 => exact PolledTo.mono h hsub
  case h_3 => exact hsub _ h
  case h_4 => trivial

end

omit [DecidableEq ι] in
/-- A step leaves its call where the log says what the place needs. -/
theorem CallTrans.placed {i : ι} {s s' : Shared ι F T P W} {a : Label F T P W}
    {pc pc' : Pc F T P W} (h : CallTrans i s pc a s' pc') (hpc : pc.Placed s.log i) :
    pc'.Placed s'.log i := by
  have hkeep := hpc.mono fun _ he => h.mem_log he
  cases h with
  | pollReady | pollPanicked => exact ⟨_, rfl, List.mem_cons_self ..⟩
  | drop | completeLock => exact hkeep
  | completeSwap | cancelSwap => exact List.mem_cons_self ..
  | completePublish | cancelPublish => exact ⟨_, _, List.mem_cons_self ..⟩
  | _ => first | exact hkeep | trivial

/-- What is known of a call at its place, in every state reached. -/
theorem reachable_placed (h : (taskMachine fut).Reachable G c) (j : ι) :
    (c.loc j).Placed c.shared.log j := by
  refine task_local (J := fun _ => True) (L := fun j s pc => pc.Placed s.log j) h
    (fun _ _ => trivial) (fun _ => trivial) ?_ ?_ j
  · intro c i a s' pc pc' _ _ _ hL ht
    exact ht.placed hL
  · intro c i a s' pc pc' j _ _ _ _ ht hL
    exact hL.mono fun _ he => ht.mem_log he

omit [DecidableEq ι] in
/-- What a step adds to the log is justified. -/
theorem CallTrans.justified {i : ι} {s s' : Shared ι F T P W} {a : Label F T P W}
    {pc pc' : Pc F T P W} (h : CallTrans i s pc a s' pc') (hpc : pc.Placed s.log i)
    (hlog : ∀ e ∈ s.log, e.Justified s.log) : ∀ e ∈ s'.log, e.Justified s'.log := by
  have hold : ∀ e ∈ s.log, e.Justified s'.log :=
    fun e he => (hlog e he).mono fun _ he => h.mem_log he
  have hkeep := hpc.mono fun _ he => h.mem_log he
  cases h with
  | completeSwap => exact List.forall_mem_cons.2 ⟨hkeep, hold⟩
  | completePublish => exact List.forall_mem_cons.2 ⟨.inl hkeep, hold⟩
  | cancelPublish => exact List.forall_mem_cons.2 ⟨.inr ⟨rfl, hkeep⟩, hold⟩
  | cancelClearUnwind =>
    exact List.forall_mem_cons.2 ⟨hkeep, List.forall_mem_cons.2 ⟨trivial, hold⟩⟩
  | dropUnwind | runClearUnwind =>
    exact List.forall_mem_cons.2 ⟨trivial, List.forall_mem_cons.2 ⟨trivial, hold⟩⟩
  | _ => first | exact hold | exact List.forall_mem_cons.2 ⟨trivial, hold⟩

/-- Every event of the log is justified, in every state reached. -/
theorem reachable_justified (h : (taskMachine fut).Reachable G c) :
    ∀ e ∈ c.shared.log, e.Justified c.shared.log := by
  refine task_invariant (I := fun c => ∀ e ∈ c.shared.log, e.Justified c.shared.log) h
    (fun _ h => reachable_placed h) nofun ?_
  rintro c i a s' _ pc' hpl hI _ rfl ht
  exact ht.justified (hpl i) hI

/-- A result in the slot was written. -/
theorem reachable_result (h : (taskMachine fut).Reachable G c) :
    ∀ o, c.shared.cell.result = some o → ∃ i, .resultWritten i o ∈ c.shared.log := by
  refine task_invariant (I := fun c => ∀ o, c.shared.cell.result = some o →
    ∃ i, .resultWritten i o ∈ c.shared.log) h (fun _ _ => trivial) nofun ?_
  intro c i a s' pc pc' _ hI _ _ ht
  have hkeep : ∀ o, c.shared.cell.result = some o → ∃ i, .resultWritten i o ∈ s'.log := by
    intro o ho
    obtain ⟨j, hj⟩ := hI o ho
    exact ⟨j, ht.mem_log hj⟩
  cases ht with
  | completePublish | cancelPublish => 
    rintro o ho
    cases ho
    exact ⟨i, List.mem_cons_self ..⟩
  | joinTake => exact nofun
  | _ => exact hkeep

/-! ## What the `JoinHandle` returns -/

/-- The call is a `JoinHandle::poll` that found the result slot empty. -/
def Pc.foundEmpty : Pc F T P W → Bool
  | .join (.load _) | .join (.store _) => true
  | _ => false

omit [DecidableEq ι] in
/-- A call that found the slot empty holds the lock. -/
theorem Pc.foundEmpty_inLock {pc : Pc F T P W} (h : pc.foundEmpty = true) : pc.inLock = true := by
  cases pc with
  | join pc => cases pc <;> simp_all [Pc.foundEmpty, Pc.inLock]
  | _ => simp [Pc.foundEmpty] at h

omit [DecidableEq ι] in
/-- A poll that returns holds the lock. -/
theorem Pc.returnsReady_inLock {pc : Pc F T P W} (h : pc.returnsReady = true) :
    pc.inLock = true := by
  cases pc with
  | join pc => cases pc <;> simp_all [Pc.returnsReady, Pc.inLock]
  | _ => simp [Pc.returnsReady] at h

section
variable [Fintype ι]

/-- The slot stays empty for a poll that found it empty, since the poll holds the lock. -/
theorem reachable_foundEmpty (h : (taskMachine fut).Reachable G c) (j : ι) :
    (c.loc j).foundEmpty = true → c.shared.cell.result = none := by
  refine task_local (J := fun c => (taskMachine fut).Reachable G c)
    (L := fun _ s pc => pc.foundEmpty = true → s.cell.result = none) h (fun _ h => h)
    (fun _ => nofun) ?_ ?_ j
  · intro c i a s' pc pc' _ _ _ hL ht hpc'
    cases ht with
    | joinTakeEmpty hr => exact hr
    | joinLoad => exact hL rfl
    | _ => cases hpc'
  · intro c i a s' pc pc' j hr _ hpc hji ht hL hj
    have hlock := Pc.foundEmpty_inLock hj
    cases ht with
    | completePublish => exact absurd (inLock_unique hr hlock (by rw [hpc]; rfl)) hji
    | cancelPublish hl => rw [inLock_locked hr hlock] at hl; cases hl
    | joinTake => rfl
    | _ => exact hL hj

/-- Once the result was written and is not in the slot, it has been returned or is about to be. -/
def ResultTaken (c : TaskConfig ι F T P W) : Prop :=
  0 < occurrences Event.isWrite c.shared.log → c.shared.cell.result = none →
    (firstReady c.shared.log).isSome ∨ ∃ j, (c.loc j).returnsReady = true

omit [DecidableEq ι] [Fintype ι] in
/-- What the first `Ready` was, it stays. -/
theorem firstReady_cons {e : Event ι T P W} {log : List (Event ι T P W)}
    (h : (firstReady log).isSome) : firstReady (e :: log) = firstReady log := by
  obtain ⟨o, ho⟩ := Option.isSome_iff_exists.1 h
  simp [firstReady, ho]

omit [DecidableEq ι] [Fintype ι] in
/-- A step changes what the first `Ready` was only when there was none. -/
theorem CallTrans.firstReady_eq {i : ι} {s s' : Shared ι F T P W} {a : Label F T P W}
    {pc pc' : Pc F T P W} (h : CallTrans i s pc a s' pc') (hs : (firstReady s.log).isSome) :
    firstReady s'.log = firstReady s.log := by
  cases h with
  | dropUnwind | runClearUnwind | cancelClearUnwind =>
    exact (firstReady_cons ((firstReady_cons hs).symm ▸ hs)).trans (firstReady_cons hs)
  | _ => first | rfl | exact firstReady_cons hs

omit [Fintype ι] in
/-- Every step keeps `ResultTaken`. -/
theorem ResultTaken.step {i : ι} {a : Label F T P W} {s' : Shared ι F T P W} {pc pc' : Pc F T P W}
    (h : ResultTaken c) (hpc : c.loc i = pc) (ht : CallTrans i c.shared pc a s' pc') :
    ResultTaken ⟨s', Function.update c.loc i pc'⟩ := by
  unfold ResultTaken at h ⊢
  rw [exists_split i, hpc] at h
  simp only [exists_update]
  generalize Others Pc.returnsReady c.loc i = D at h ⊢
  cases ht with
  | joinTake | joinLoadCompleted => exact fun _ _ => .inr (.inl rfl)
  | completePublish | cancelPublish => exact nofun
  | @joinReturn r =>
    cases r with
    | ready o => exact fun _ _ => .inl (by simp [firstReady])
    | pending w => simpa [Event.isWrite, Pc.returnsReady, firstReady] using h
  | _ => simpa [Event.isWrite, Pc.returnsReady, firstReady] using h

omit [Fintype ι] in
/-- `ResultTaken` in every state reached. -/
theorem reachable_resultTaken (h : (taskMachine fut).Reachable G c) : ResultTaken c := by
  refine task_invariant (J := fun _ => True) h (fun _ _ => trivial) nofun ?_
  intro c i a s' pc pc' _ hI _ hpc ht
  exact hI.step hpc ht

/-- Whoever completed the task without publishing is a `cancel`, as far as a poll can see that holds
the lock. -/
theorem cancelled_of_unpublished (h : (taskMachine fut).Reachable G c)
    (hs : c.shared.cell.state = .completed) (hw : occurrences Event.isWrite c.shared.log = 0) {i : ι}
    {w : W} (hi : c.loc i = .join (.load w)) : ∃ j, .cancelWon j ∈ c.shared.log := by
  have htot := reachable_published h
  have hlock : (c.loc i).inLock = true := by rw [hi]; rfl
  rcases exists_holder (htot ▸ Nat.one_pos) with hsh | ⟨j, hj⟩
  · rw [Shared.outcomeTokens, Shared.open_completed hs, hw] at hsh
    have hpos : 0 < occurrences Event.isCancelUnwind c.shared.log := by omega
    obtain ⟨e, he, hk⟩ := exists_of_occurrences_pos hpos
    have hjust := reachable_justified h e he
    cases e with
    | cancelUnwound j => exact ⟨j, hjust⟩
    | _ => cases hk
  · have hplaced := reachable_placed h j
    cases hl : c.loc j with
    | run pc =>
      have hin : (c.loc j).inLock = true := by
        rw [hl] at hj ⊢
        cases pc with
        | complete pc => cases pc <;> simp_all [Pc.outcomeTokens, Pc.publishes, Pc.inLock]
        | _ => simp [Pc.outcomeTokens, Pc.publishes] at hj
      rw [inLock_unique h hin hlock, hi] at hl
      cases hl
    | cancel pc =>
      rw [hl] at hj hplaced
      cases pc with
      | clear | publish => exact ⟨j, hplaced⟩
      | swap | wakeJoin => simp [Pc.outcomeTokens, Pc.publishes] at hj
    | _ => simp [hl, Pc.outcomeTokens, Pc.publishes] at hj

/-- A poll that is about to return the first `Ready` returns the winner's outcome. -/
theorem reachable_ready (h : (taskMachine fut).Reachable G c) (j : ι) :
    ∀ o, c.loc j = .join (.ret (.ready o)) → firstReady c.shared.log = none →
      ∃ i, WonBy c.shared.log i o := by
  refine task_local (J := fun c => (taskMachine fut).Reachable G c)
    (L := fun _ s pc => ∀ o, pc = .join (.ret (.ready o)) → firstReady s.log = none →
      ∃ i, WonBy s.log i o) h (fun _ h => h) (fun _ => nofun) ?_ ?_ j
  · intro c i a s' pc pc' hr _ hpc _ ht o hpc' hnone
    cases ht with
    | joinTake ho =>
      cases hpc'
      obtain ⟨k, hk⟩ := reachable_result hr o ho
      exact ⟨k, reachable_justified hr _ hk⟩
    | joinLoadCompleted hs =>
      cases hpc'
      have hempty := reachable_foundEmpty hr i (by rw [hpc]; rfl)
      have hw : occurrences Event.isWrite c.shared.log = 0 := by
        by_contra hne
        rcases reachable_resultTaken hr (Nat.pos_of_ne_zero hne) hempty with hsome | ⟨k, hk⟩
        · rw [hnone] at hsome; cases hsome
        · -- whoever returns the result holds the lock, but this poll does
          have hki : k = i := inLock_unique hr (Pc.returnsReady_inLock hk) (by rw [hpc]; rfl)
          rw [hki, hpc] at hk
          cases hk
      obtain ⟨k, hk⟩ := cancelled_of_unpublished hr hs hw hpc
      exact ⟨k, .inr ⟨rfl, hk⟩⟩
    | _ => cases hpc'
  · intro c i a s' pc pc' j _ _ _ _ ht hL o hj hnone
    have hnone' : firstReady c.shared.log = none := by
      by_contra hsome
      have hsome' := Option.isSome_iff_ne_none.2 hsome
      rw [ht.firstReady_eq hsome'] at hnone
      exact hsome hnone
    obtain ⟨k, hk⟩ := hL o hj hnone'
    exact ⟨k, hk.mono fun _ he => ht.mem_log he⟩

/-- The first `Ready` that was returned is the winner's outcome. -/
theorem reachable_firstReady (h : (taskMachine fut).Reachable G c) :
    ∀ o, firstReady c.shared.log = some o → ∃ i, WonBy c.shared.log i o := by
  refine task_invariant (I := fun c => ∀ o, firstReady c.shared.log = some o →
    ∃ i, WonBy c.shared.log i o) h (fun _ h => reachable_ready h) nofun ?_
  intro c i a s' pc pc' hready hI _ hpc ht o ho
  by_cases hsome : (firstReady c.shared.log).isSome
  · rw [ht.firstReady_eq hsome] at ho
    obtain ⟨k, hk⟩ := hI o ho
    exact ⟨k, hk.mono fun _ he => ht.mem_log he⟩
  · have hnone : firstReady c.shared.log = none := by simpa using hsome
    cases ht with
    | @joinReturn r =>
      cases r with
      | ready o' =>
        have ho' : o' = o := by simpa [firstReady, hnone] using ho
        obtain ⟨k, hk⟩ := hready i o' hpc hnone
        exact ⟨k, ho' ▸ hk.mono fun _ he => List.mem_cons_of_mem _ he⟩
      | pending w => simp [firstReady, hnone] at ho
    | _ => simp [firstReady, hnone] at ho

end

/-! ## The waker of a pending poll -/

/-- The call is a `JoinHandle::poll` that is about to store its waker. -/
def Pc.storesWaker : Pc F T P W → Bool
  | .join (.store _) => true
  | _ => false

/-- A destructor that panics in `cancel` leaves no waker behind: none is registered, and no poll is
about to register one. -/
def quietUnwind (c : TaskConfig ι F T P W) (a : ι × Label F T P W) : Prop :=
  a.2 = .unwind → c.loc a.1 = .cancel .clear →
    c.shared.cell.joinWaker = none ∧ ∀ j, (c.loc j).storesWaker = false

/-- Nothing was published, and no `cancel` was left by a panic. -/
def Shared.Unpublished (s : Shared ι F T P W) : Prop :=
  occurrences Event.isWrite s.log = 0 ∧ occurrences Event.isCancelUnwind s.log = 0

/-- What a poll that will return `Pending` relies on: nothing is published while it holds the lock,
and the waker it stored stays. -/
def Pc.Waits (s : Shared ι F T P W) : Pc F T P W → Prop
  | .join (.store _) => s.Unpublished
  | .join (.ret (.pending w)) => s.Unpublished ∧ s.cell.joinWaker = some w
  | _ => True

section
variable [Fintype ι]

omit [DecidableEq ι] [Fintype ι] in
/-- Whoever is about to wake the `JoinHandle` has published. -/
theorem not_unpublished {s : Shared ι F T P W} (hw : ∃ j o, .resultWritten j o ∈ s.log) :
    ¬ s.Unpublished := by
  obtain ⟨j, o, hm⟩ := hw
  intro hu
  have hpos := occurrences_pos Event.isWrite hm rfl
  have := hu.1
  omega

omit [DecidableEq ι] [Fintype ι] in
/-- A poll that waits holds the lock, or there is nothing to say of it. -/
theorem Pc.waits_or_inLock (s : Shared ι F T P W) (pc : Pc F T P W) :
    pc.inLock = true ∨ pc.Waits s := by
  unfold Pc.Waits
  split
  case h_1 | h_2 => exact .inl rfl
  case h_3 => exact .inr trivial

omit [DecidableEq ι] [Fintype ι] in
/-- A step that publishes nothing and keeps the registered waker keeps what a poll relies on. -/
theorem Pc.Waits.mono {s s' : Shared ι F T P W} {pc : Pc F T P W} (h : pc.Waits s)
    (hu : s.Unpublished → s'.Unpublished ∧
      ∀ w, s.cell.joinWaker = some w → s'.cell.joinWaker = some w) : pc.Waits s' := by
  unfold Pc.Waits at h ⊢
  split
  case h_1 => exact (hu h).1
  case h_2 => exact ⟨(hu h.1).1, (hu h.1).2 _ h.2⟩
  case h_3 => trivial

omit [DecidableEq ι] [Fintype ι] in
/-- Without a registered waker only a poll that is about to store its waker waits. -/
theorem Pc.Waits.of_quiet {s : Shared ι F T P W} {pc : Pc F T P W} (h : pc.Waits s)
    (hw : s.cell.joinWaker = none) (hs : pc.storesWaker = false) (s' : Shared ι F T P W) :
    pc.Waits s' := by
  unfold Pc.Waits at h ⊢
  split
  case h_1 => cases hs
  case h_2 => rw [hw] at h; cases h.2
  case h_3 => trivial

/-- `Pc.Waits` of every call, in every state reached. -/
theorem reachable_waits (h : (taskMachine fut).Reachable quietUnwind c) (j : ι) :
    (c.loc j).Waits c.shared := by
  refine task_local (J := fun c => (taskMachine fut).Reachable quietUnwind c)
    (L := fun _ s pc => pc.Waits s) h (fun _ h => h) (fun _ => trivial) ?_ ?_ j
  · intro c i a s' pc pc' hr _ hpc hL ht
    cases ht with
    | joinLoad hs =>
      obtain ⟨hw, hu, -⟩ := nothing_published hr hs i
      exact ⟨hw, hu⟩
    | joinStore => exact ⟨hL, rfl⟩
    | _ => trivial
  · intro c i a s' pc pc' j hr hG hpc hji ht hL
    rcases Pc.waits_or_inLock s' (c.loc j) with hlock | hdone
    · have halone : pc.inLock = true → False := fun hin =>
        hji (inLock_unique hr hlock (hpc ▸ hin))
      have hplaced := hpc ▸ reachable_placed hr i
      cases ht with
      | completePublish | joinStore => exact (halone rfl).elim
      | cancelPublish hl => rw [inLock_locked hr hlock] at hl; cases hl
      | cancelClearUnwind =>
        obtain ⟨hw, hstore⟩ := hG rfl hpc
        exact hL.of_quiet hw (hstore j) _
      | completeWakeJoin | cancelWakeJoin => exact hL.mono fun hu => (not_unpublished hplaced hu).elim
      | _ =>
        exact hL.mono fun hu => ⟨by simpa [Shared.Unpublished, Event.isWrite, Event.isCancelUnwind]
          using hu, fun _ hw => hw⟩
    · exact hdone

/-- The waker of the last poll that returned `Pending` has been woken, is registered, or is being
replaced by a poll under way. -/
def WakerKept (c : TaskConfig ι F T P W) : Prop :=
  ∀ w, lastReturn c.shared.log = some (.pending w) → WokenSince w c.shared.log ∨
    c.shared.cell.joinWaker = some w ∨ ∃ j, (c.loc j).returnsPending = true

omit [Fintype ι] in
/-- Every step keeps `WakerKept`. -/
theorem WakerKept.step {i : ι} {a : Label F T P W} {s' : Shared ι F T P W} {pc pc' : Pc F T P W}
    (hwaits : pc.Waits c.shared) (h : WakerKept c) (hpc : c.loc i = pc)
    (ht : CallTrans i c.shared pc a s' pc') : WakerKept ⟨s', Function.update c.loc i pc'⟩ := by
  unfold WakerKept at h ⊢
  rw [exists_split i, hpc] at h
  simp only [exists_update]
  generalize Others Pc.returnsPending c.loc i = D at h ⊢
  cases ht with
  | joinStore => exact fun _ _ => .inr (.inr (.inl rfl))
  | @joinReturn r =>
    intro w hw
    cases r with
    | ready o => cases hw
    | pending w' =>
      cases hw
      exact .inr (.inl hwaits.2)
  | completeWakeJoin hw' | cancelWakeJoin hw' =>
    intro w hw
    rcases h w hw with hwoken | hreg | hpend | hD
    · exact .inl (.inr hwoken)
    · rw [hw'] at hreg
      exact .inl (.inl (Option.some.inj hreg))
    · cases hpend
    · exact .inr (.inr (.inr hD))
  | _ => simpa [lastReturn, WokenSince, Pc.returnsPending] using h

/-- `WakerKept` in every state reached. -/
theorem reachable_wakerKept (h : (taskMachine fut).Reachable quietUnwind c) : WakerKept c := by
  refine task_invariant h (fun _ h => reachable_waits h) nofun ?_
  intro c i a s' pc pc' hwaits hI _ hpc ht
  exact hI.step (hpc ▸ hwaits i) hpc ht

/-- The waker of the last poll that returned `Pending` has been woken once the task has completed
and whoever completed it is done. -/
def WakerWoken (c : TaskConfig ι F T P W) : Prop :=
  ∀ w, lastReturn c.shared.log = some (.pending w) → c.shared.cell.state = .completed →
    WokenSince w c.shared.log ∨ ∃ j, (c.loc j).wakesJoin = true

omit [DecidableEq ι] [Fintype ι] in
/-- A poll that is about to return `Pending` has its waker registered, and nothing was published. -/
theorem Pc.Waits.pending {s : Shared ι F T P W} {pc : Pc F T P W} (h : pc.Waits s)
    (hp : pc.returnsPending = true) : s.Unpublished ∧ s.cell.joinWaker ≠ none := by
  cases pc with
  | join pc =>
    cases pc with
    | ret r =>
      cases r with
      | ready o => cases hp
      | pending w => exact ⟨h.1, by rw [h.2]; exact nofun⟩
    | _ => cases hp
  | _ => cases hp

/-- A completed task that has not been published is about to be. -/
theorem exists_publisher (h : (taskMachine fut).Reachable G c)
    (hs : c.shared.cell.state = .completed) (hu : c.shared.Unpublished) :
    ∃ j, (c.loc j).publishes = true := by
  have htot := reachable_published h
  rcases exists_holder (htot ▸ Nat.one_pos) with hsh | ⟨j, hj⟩
  · rw [Shared.outcomeTokens, Shared.open_completed hs, hu.1, hu.2] at hsh
    cases hsh
  · refine ⟨j, ?_⟩
    by_contra hne
    rw [Bool.not_eq_true] at hne
    simp [Pc.outcomeTokens, hne] at hj

omit [DecidableEq ι] in
/-- Whoever is about to publish is about to wake. -/
theorem Pc.publishes_wakesJoin {pc : Pc F T P W} (h : pc.publishes = true) :
    pc.wakesJoin = true := by
  unfold Pc.publishes at h
  split at h
  case h_1 | h_2 | h_3 => rfl
  case h_4 => cases h

/-- Every step that meets the guard keeps `WakerWoken`. -/
theorem WakerWoken.step {i : ι} {a : Label F T P W} {s' : Shared ι F T P W} {pc pc' : Pc F T P W}
    (hr : (taskMachine fut).Reachable quietUnwind c) (h : WakerWoken c) (hG : quietUnwind c (i, a))
    (hpc : c.loc i = pc) (ht : CallTrans i c.shared pc a s' pc') :
    WakerWoken ⟨s', Function.update c.loc i pc'⟩ := by
  have hkept := reachable_wakerKept hr
  have hwaits := reachable_waits hr
  have hplaced := hpc ▸ reachable_placed hr i
  unfold WakerWoken at h ⊢
  rw [exists_split i, hpc] at h
  simp only [exists_update]
  cases ht with
  | completeSwap | cancelSwap | completePublish | completeUnlock | cancelClear | cancelClearEmpty
  | cancelPublish => exact fun _ _ _ => .inr (.inl rfl)
  | completeWakeJoin hw' | cancelWakeJoin hw' =>
    intro w hw _
    rcases hkept w hw with hwoken | hreg | ⟨j, hj⟩
    · exact .inl (.inr hwoken)
    · rw [hw'] at hreg
      exact .inl (.inl (Option.some.inj hreg))
    · exact (not_unpublished hplaced ((hwaits j).pending hj).1).elim
  | completeWakeNone hw' | cancelWakeNone hw' =>
    intro w hw _
    rcases hkept w hw with hwoken | hreg | ⟨j, hj⟩
    · exact .inl hwoken
    · rw [hw'] at hreg
      cases hreg
    · exact (not_unpublished hplaced ((hwaits j).pending hj).1).elim
  | cancelClearUnwind =>
    intro w hw _
    obtain ⟨hnone, -⟩ := hG rfl hpc
    rcases hkept w hw with hwoken | hreg | ⟨j, hj⟩
    · exact .inl hwoken
    · rw [hnone] at hreg
      cases hreg
    · exact absurd hnone ((hwaits j).pending hj).2
  | @joinReturn r =>
    intro w hw hs
    cases r with
    | ready o => cases hw
    | pending w' =>
      have hu := (hpc ▸ hwaits i : Pc.Waits _ (.join (.ret (.pending w')))).1
      obtain ⟨j, hj⟩ := exists_publisher hr hs hu
      refine .inr (.inr ⟨j, ?_, Pc.publishes_wakesJoin hj⟩)
      rintro rfl
      rw [hpc] at hj
      cases hj
  | claim hs | runCas hs | wakeCas hs | wakeCasRunning hs => exact nofun
  | _ => simpa [lastReturn, WokenSince, Pc.wakesJoin] using h

/-- `WakerWoken` in every state reached under the guard. -/
theorem reachable_wakerWoken (h : (taskMachine fut).Reachable quietUnwind c) : WakerWoken c := by
  refine task_invariant h (fun _ h => h) nofun ?_
  intro c i a s' pc pc' hr hI hG hpc ht
  exact hI.step hr hG hpc ht

/-! ## The result -/

/-- Exactly one outcome, as the `JoinHandle` sees it. -/
structure OneOutcome (c : TaskConfig ι F T P W) : Prop where
  /-- The state is moved to `COMPLETED` once. -/
  wonOnce : occurrences Event.isWin c.shared.log ≤ 1
  /-- The result is written once, -/
  writtenOnce : occurrences Event.isWrite c.shared.log ≤ 1
  /-- by whoever moved the state to `COMPLETED`, -/
  writtenByWinner : ∀ i o, .resultWritten i o ∈ c.shared.log → WonBy c.shared.log i o
  /-- with what the future's poll gave, when that was `complete`. -/
  polled : ∀ i o, .completeWon i o ∈ c.shared.log → PolledTo c.shared.log i o
  /-- The first `Ready` is `Ok(v)` or `Panicked(p)` exactly when `complete` won with `v` or `p`, -/
  readyCompleted : ∀ o, firstReady c.shared.log = some o → ∀ o', o' ≠ .error .cancelled →
    (o = o' ↔ ∃ i, .completeWon i o' ∈ c.shared.log)
  /-- and `Cancelled` exactly when a `cancel` won. -/
  readyCancelled : ∀ o, firstReady c.shared.log = some o →
    (o = .error .cancelled ↔ ∃ i, .cancelWon i ∈ c.shared.log)
  /-- A `cancel` after completion changes nothing. -/
  lateCancel : c.shared.cell.state = .completed → ∀ i a s' pc', c.loc i = .cancel .swap →
    callStep i c.shared (c.loc i) a = some (s', pc') → s' = c.shared ∧ pc' = .idle
  /-- After a `cancel` that won nothing but `Cancelled` is written. -/
  staysCancelled : (∃ i, .cancelWon i ∈ c.shared.log) →
    ∀ i o, .resultWritten i o ∈ c.shared.log → o = .error .cancelled
  /-- If the last poll returned `Pending` with the waker `w`, the task has completed and no
  `complete` or `cancel` is in progress, `w` has been woken. -/
  waker : ∀ w, lastReturn c.shared.log = some (.pending w) → c.shared.cell.state = .completed →
    (∀ i, (c.loc i).settling = false) → WokenSince w c.shared.log

omit [DecidableEq ι] [Fintype ι] in
/-- A `cancel` that finds the task completed returns at once. -/
theorem CallTrans.lateCancel {i : ι} {s s' : Shared ι F T P W} {a : Label F T P W}
    {pc' : Pc F T P W} (h : CallTrans i s (.cancel .swap) a s' pc')
    (hs : s.cell.state = .completed) : s' = s ∧ pc' = .idle := by
  cases h with
  | cancelSwap hs' => exact absurd hs hs'
  | cancelSwapLost => exact ⟨rfl, rfl⟩

omit [DecidableEq ι] in
/-- A call that will wake the `JoinHandle` is in `complete` or in `cancel`. -/
theorem Pc.wakesJoin_settling {pc : Pc F T P W} (h : pc.wakesJoin = true) :
    pc.settling = true := by
  unfold Pc.wakesJoin at h
  split at h
  case h_7 => cases h
  all_goals rfl

omit [DecidableEq ι] [Fintype ι] in
/-- A poll never gives `Cancelled`. -/
theorem PolledTo.ne_cancelled {log : List (Event ι T P W)} {i : ι} {o : Except (JoinError P) T}
    (h : PolledTo log i o) : o ≠ .error .cancelled := by
  obtain ⟨r, hr, -⟩ := h
  rintro rfl
  cases r <;> cases hr

omit [DecidableEq ι] [Fintype ι] in
/-- With one win in the log, the outcome that `complete` won with is the winner's. -/
theorem WonBy.completed_iff {log : List (Event ι T P W)} {i : ι} {o o' : Except (JoinError P) T}
    (hone : occurrences Event.isWin log ≤ 1) (h : WonBy log i o) (ho' : o' ≠ .error .cancelled) :
    o = o' ↔ ∃ j, .completeWon j o' ∈ log := by
  constructor
  · rintro rfl
    rcases h with h | ⟨ho, -⟩
    · exact ⟨i, h⟩
    · exact absurd ho ho'
  · rintro ⟨j, hj⟩
    rcases h with h | ⟨-, h⟩
    · have heq := eq_of_occurrences_le hone h rfl hj rfl
      cases heq
      rfl
    · have heq := eq_of_occurrences_le hone h rfl hj rfl
      cases heq

omit [DecidableEq ι] [Fintype ι] in
/-- With one win in the log, the winner's outcome is `Cancelled` when `cancel` won. -/
theorem WonBy.cancelled_iff {log : List (Event ι T P W)} {i : ι} {o : Except (JoinError P) T}
    (hone : occurrences Event.isWin log ≤ 1)
    (hpolled : ∀ i o, .completeWon i o ∈ log → PolledTo log i o) (h : WonBy log i o) :
    o = .error .cancelled ↔ ∃ j, .cancelWon j ∈ log := by
  constructor
  · intro ho
    rcases h with h | ⟨-, h⟩
    · exact absurd ho (hpolled i o h).ne_cancelled
    · exact ⟨i, h⟩
  · rintro ⟨j, hj⟩
    rcases h with h | ⟨ho, -⟩
    · have heq := eq_of_occurrences_le hone h rfl hj rfl
      cases heq
    · exact ho

/-- A task has exactly one outcome, under every interleaving in which a destructor that panics in
`cancel` leaves no waker behind. -/
theorem one_outcome (h : (taskMachine fut).Reachable quietUnwind c) : OneOutcome c := by
  have hjust := reachable_justified h
  have hone : occurrences Event.isWin c.shared.log ≤ 1 := by
    have := reachable_won h
    omega
  have hpolled : ∀ i o, .completeWon i o ∈ c.shared.log → PolledTo c.shared.log i o :=
    fun i o hm => hjust _ hm
  have hwritten : ∀ i o, .resultWritten i o ∈ c.shared.log → WonBy c.shared.log i o :=
    fun i o hm => hjust _ hm
  refine ⟨hone, ?_, hwritten, hpolled, ?_, ?_, ?_, ?_, ?_⟩
  · have htot := reachable_published h
    rw [total, Shared.outcomeTokens] at htot
    omega
  · intro o ho o' ho'
    obtain ⟨i, hi⟩ := reachable_firstReady h o ho
    exact hi.completed_iff hone ho'
  · intro o ho
    obtain ⟨i, hi⟩ := reachable_firstReady h o ho
    exact hi.cancelled_iff hone hpolled
  · intro hs i a s' pc' hpc hstep
    rw [hpc] at hstep
    exact (callStep_trans hstep).lateCancel hs
  · intro hcancel i o hm
    exact ((hwritten i o hm).cancelled_iff hone hpolled).2 hcancel
  · intro w hw hs hquiet
    rcases reachable_wakerWoken h w hw hs with hwoken | ⟨j, hj⟩
    · exact hwoken
    · have hset := Pc.wakesJoin_settling hj
      rw [hquiet j] at hset
      cases hset

/-- A poll that returns `Pending`, and a `cancel` that wakes it. -/
def pendingThenCancelRun : List (Bool × Label ℕ ℕ ℕ ℕ) :=
  [(false, .pollJoin 7), (false, .go), (false, .go), (false, .go), (false, .go), (false, .go),
    (true, .cancel), (true, .go), (true, .go), (true, .go), (true, .go)]

instance (c : TaskConfig ι F T P W) (a : ι × Label F T P W) [DecidableEq F] [DecidableEq T]
    [DecidableEq P] [DecidableEq W] : Decidable (quietUnwind c a) :=
  inferInstanceAs (Decidable (_ → _ → _ ∧ _))

/-- In that run the waker of the poll has been woken. -/
theorem one_outcome_pending_then_cancel :
    ∃ c, (taskMachine 0).runIf quietUnwind (taskMachine 0).init pendingThenCancelRun = some c ∧
      lastReturn c.shared.log = some (.pending 7) ∧ c.shared.cell.state = .completed ∧
      OneOutcome c :=
  ⟨_, rfl, rfl, rfl, one_outcome (Machine.reach_of_runIf pendingThenCancelRun rfl)⟩

/-- A poll that returns `Pending`, and a `cancel` whose drop of the future panics. -/
def pendingThenUnwindRun : List (Bool × Label ℕ ℕ ℕ ℕ) :=
  [(false, .pollJoin 7), (false, .go), (false, .go), (false, .go), (false, .go), (false, .go),
    (true, .cancel), (true, .go), (true, .unwind)]

/-- In that run nothing is in progress on the completed task and the waker has not been woken: the
guard of `one_outcome` cannot be left out. -/
theorem waker_lost_by_unwind :
    ∃ c, (taskMachine 0).run (taskMachine 0).init pendingThenUnwindRun = some c ∧
      ¬ OneOutcome c := by
  refine ⟨_, rfl, fun h => ?_⟩
  have hwoken := h.waker 7 rfl rfl (by decide)
  exact hwoken

end

end Hypertile
