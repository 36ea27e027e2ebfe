import Hypertile.Task.Steps

/-!
# The owner of a task's future

`run` moves the future out of the cell for the poll and puts it back afterwards, and `cancel` clears
the slot without knowing whether the future is in it. The slot, the calls of `run` that hold the
future and the destructions in the log share one token (`CallTrans.owned`), whatever the
interleaving, the clones that are run and the destructors that panic. From it follow the owner
(`FutureAt`), that an ended future is not polled again (`PollsStop`), and, with the calls that will
still clear the slot (`Pc.clears`), that a completed task does not keep its future.
-/

namespace Hypertile

open Machine Machine.Threads

variable {ι F T P W : Type}

/-- The call is between its take of the future and its put-back or drop of it. -/
def Pc.holdsFuture : Pc F T P W → Bool
  | .run (.poll _) | .run (.putBack _) | .run (.drop _ _) => true
  | _ => false

/-- The call is polling the future. -/
def Pc.polling : Pc F T P W → Bool
  | .run (.poll _) => true
  | _ => false

/-- The call is a call of `run`. -/
def Pc.inRun : Pc F T P W → Bool
  | .run _ => true
  | _ => false

/-- The call is a call of `cancel`. -/
def Pc.inCancel : Pc F T P W → Bool
  | .cancel _ => true
  | _ => false

/-- The event is a destruction of the future. -/
def Event.isDrop : Event ι T P W → Bool
  | .futureDropped _ => true
  | _ => false

/-- How often a log has the future destroyed. -/
def timesDropped (log : List (Event ι T P W)) : ℕ := occurrences Event.isDrop log

@[simp] theorem timesDropped_cons (e : Event ι T P W) (log : List (Event ι T P W)) :
    timesDropped (e :: log) = e.isDrop.toNat + timesDropped log :=
  occurrences_cons ..

/-! ## The token -/

/-- The tokens of the shared state: one for a future in the slot, one for each destruction. -/
def Shared.futureTokens (s : Shared ι F T P W) : ℕ :=
  s.cell.future.isSome.toNat + timesDropped s.log

/-- The token of a call that holds the future. -/
def Pc.futureTokens (pc : Pc F T P W) : ℕ := pc.holdsFuture.toNat

/-- Every step keeps the tokens of the shared state and its call together. -/
theorem CallTrans.owned {i : ι} {s s' : Shared ι F T P W} {a : Label F T P W}
    {pc pc' : Pc F T P W} (h : CallTrans i s pc a s' pc') :
    s'.futureTokens + pc'.futureTokens = s.futureTokens + pc.futureTokens := by
  cases h <;> simp [Shared.futureTokens, Pc.futureTokens, Pc.holdsFuture, Event.isDrop, *] <;> omega

variable [DecidableEq ι] [Fintype ι] {fut : F} {c : TaskConfig ι F T P W}
  {G : TaskConfig ι F T P W → ι × Label F T P W → Prop}

/-- There is one token in every state reached. -/
theorem reachable_owned (h : (taskMachine fut).Reachable G c) :
    total Shared.futureTokens Pc.futureTokens c = 1 := by
  refine task_invariant
    (I := fun c => total Shared.futureTokens Pc.futureTokens c = 1) h (fun _ _ => trivial) ?_ ?_
  · simp [total, Shared.futureTokens, Pc.futureTokens, Pc.holdsFuture, Shared.new,
      timesDropped]
  · rintro c i a s' _ pc' _ hI _ rfl ht
    exact (total_step ht.owned).trans hI

omit [DecidableEq ι] in
/-- A call that holds the future holds the token. -/
theorem pos_futureTokens {pc : Pc F T P W} (h : pc.holdsFuture = true) : 0 < pc.futureTokens := by
  simp [Pc.futureTokens, h]

/-! ## The owner -/

/-- Where the future of a task is: in the slot, held by exactly one call, or destroyed, once. -/
inductive FutureAt (c : TaskConfig ι F T P W) : Prop
  | slot : c.shared.cell.future.isSome → (∀ i, (c.loc i).holdsFuture = false) →
      timesDropped c.shared.log = 0 → FutureAt c
  | held (i : ι) : c.shared.cell.future = none → (c.loc i).holdsFuture = true →
      (∀ j, (c.loc j).holdsFuture = true → j = i) → timesDropped c.shared.log = 0 → FutureAt c
  | destroyed : c.shared.cell.future = none → (∀ i, (c.loc i).holdsFuture = false) →
      timesDropped c.shared.log = 1 → FutureAt c

/-- The one token says where the future is. -/
theorem futureAt_of_total (h : total Shared.futureTokens Pc.futureTokens c = 1) : FutureAt c := by
  have hle := fun i => h ▸ le_total Shared.futureTokens Pc.futureTokens c i
  by_cases hex : ∃ i, (c.loc i).holdsFuture = true
  · obtain ⟨i, hi⟩ := hex
    have hi' := pos_futureTokens hi
    have h₀ : c.shared.futureTokens = 0 := by have := hle i; omega
    have hnone : c.shared.cell.future = none := by
      cases hf : c.shared.cell.future <;> simp [Shared.futureTokens, hf] at h₀ ⊢
    refine .held i hnone hi (fun j hj => ?_) (by simp [Shared.futureTokens] at h₀; exact h₀.2)
    exact holder_unique h.le (pos_futureTokens hj) hi'
  · have hno : ∀ i, (c.loc i).holdsFuture = false := fun i => by
      simpa using fun hi => hex ⟨i, hi⟩
    have hs : c.shared.futureTokens = 1 := by
      simpa [total, Pc.futureTokens, hno] using h
    cases hf : c.shared.cell.future with
    | some f => exact .slot (by simp [hf]) hno (by simpa [Shared.futureTokens, hf] using hs)
    | none => exact .destroyed hf hno (by simpa [Shared.futureTokens, hf] using hs)

/-- The future has one owner in every state reached. -/
theorem reachable_futureAt (h : (taskMachine fut).Reachable G c) : FutureAt c :=
  futureAt_of_total (reachable_owned h)

omit [DecidableEq ι] [Fintype ι] in
/-- Two calls that hold the future are one call. -/
theorem FutureAt.holder_unique (h : FutureAt c) {i j : ι} (hi : (c.loc i).holdsFuture = true)
    (hj : (c.loc j).holdsFuture = true) : i = j := by
  cases h with
  | slot _ hno _ | destroyed _ hno _ => rw [hno i] at hi; cases hi
  | held k _ _ hk _ => exact (hk i hi).trans (hk j hj).symm

omit [DecidableEq ι] [Fintype ι] in
/-- A future that some call holds is not in the slot. -/
theorem FutureAt.slot_empty (h : FutureAt c) {i : ι} (hi : (c.loc i).holdsFuture = true) :
    c.shared.cell.future = none := by
  cases h with
  | slot _ hno _ => rw [hno i] at hi; cases hi
  | held _ hn _ _ _ => exact hn
  | destroyed hn _ _ => exact hn

/-! ## Polls -/

/-- The event ends the future: a poll returned `Ready` or panicked. -/
def Event.endsFuture : Event ι T P W → Bool
  | .pollEnded _ .pending => false
  | .pollEnded _ _ => true
  | _ => false

/-- The event is the start of a poll. -/
def Event.isPollBegan : Event ι T P W → Bool
  | .pollBegan _ => true
  | _ => false

/-- A poll of the log ended the future. -/
def ended (log : List (Event ι T P W)) : Bool := log.any Event.endsFuture

omit [DecidableEq ι] [Fintype ι] in
@[simp] theorem ended_cons (e : Event ι T P W) (log : List (Event ι T P W)) :
    ended (e :: log) = (e.endsFuture || ended log) := rfl

/-- No poll begins after one that ended the future, in a log that has the newest event first. -/
def PollsStop : List (Event ι T P W) → Prop
  | [] => True
  | e :: older => (e.isPollBegan = true → ended older = false) ∧ PollsStop older

omit [DecidableEq ι] [Fintype ι] in
/-- What `PollsStop` says of a log: whatever is newer than the end of the future begins no poll. -/
theorem PollsStop.newer {older : List (Event ι T P W)} {x : Event ι T P W}
    (hx : x.endsFuture = true) :
    ∀ {newer}, PollsStop (newer ++ x :: older) → ∀ e ∈ newer, e.isPollBegan = false
  | [], _, _, he => by cases he
  | e :: newer, ⟨hstop, h⟩, e', he => by
    rcases List.mem_cons.1 he with rfl | he
    · by_contra hb
      have hend := hstop (by simpa using hb)
      simp [ended, hx] at hend
    · exact PollsStop.newer hx h e' he

/-- The call is about to drop a future whose poll ended it. -/
def Pc.dropping : Pc F T P W → Bool
  | .run (.drop _ _) => true
  | _ => false

/-- An ended future has been destroyed or is about to be, and no poll began after it ended. -/
structure EndedOk (c : TaskConfig ι F T P W) : Prop where
  gone : ended c.shared.log = true →
    (∃ i, (c.loc i).dropping = true) ∨ 0 < timesDropped c.shared.log
  stop : PollsStop c.shared.log

omit [DecidableEq ι] [Fintype ι] in
/-- A future in the slot has not ended: it is neither destroyed nor about to be. -/
theorem EndedOk.not_ended {f : F} (h : EndedOk c) (hf : FutureAt c)
    (hslot : c.shared.cell.future = some f) : ended c.shared.log = false := by
  cases hf with
  | slot _ hno hd =>
    by_contra hend
    rcases h.gone (by simpa using hend) with ⟨j, hj⟩ | hd'
    · have hj' := hno j
      cases hl : c.loc j with
      | run pc => cases pc <;> simp_all [Pc.dropping, Pc.holdsFuture]
      | _ => simp [hl, Pc.dropping] at hj
    · omega
  | held _ hn _ _ _ | destroyed hn _ _ => rw [hslot] at hn; cases hn

omit [Fintype ι] in
/-- Every step keeps `EndedOk`. -/
theorem EndedOk.step {i : ι} {a : Label F T P W} {s' : Shared ι F T P W} {pc pc' : Pc F T P W}
    (hf : FutureAt c) (h : EndedOk c) (hpc : c.loc i = pc)
    (ht : CallTrans i c.shared pc a s' pc') : EndedOk ⟨s', Function.update c.loc i pc'⟩ := by
  have hgone := h.gone
  have hstop := h.stop
  suffices hs : (ended s'.log = true → (pc'.dropping = true ∨ Others Pc.dropping c.loc i) ∨
      0 < timesDropped s'.log) ∧ PollsStop s'.log from
    ⟨fun he => by simpa only [exists_update] using hs.1 he, hs.2⟩
  rw [exists_split i, hpc] at hgone
  generalize Others Pc.dropping c.loc i = D at hgone
  cases ht with
  | take hslot =>
    have hlive := h.not_ended hf hslot
    exact ⟨fun he => absurd he (by simp [Event.endsFuture, hlive]), fun _ => hlive, hstop⟩
  | pollReady | pollPanicked => exact ⟨fun _ => .inl (.inl rfl), nofun, hstop⟩
  | drop | dropUnwind | putBackOver | runClear | runClearUnwind | cancelClear | cancelClearUnwind =>
    exact ⟨fun _ => .inr (by simp [Event.isDrop]), by simpa [PollsStop, Event.isPollBegan]⟩
  | _ =>
    refine ⟨?_, by simpa [PollsStop, Event.isPollBegan] using hstop⟩
    simpa [Event.endsFuture, Event.isDrop, Pc.dropping] using hgone

/-- `EndedOk` in every state reached. -/
theorem reachable_endedOk (h : (taskMachine fut).Reachable G c) : EndedOk c := by
  refine task_invariant h (fun _ h => reachable_futureAt h) ⟨nofun, trivial⟩ ?_
  intro c i a s' pc pc' hf hI _ hpc ht
  exact hI.step hf hpc ht

/-! ## A completed task does not keep its future -/

/-- The call is in `complete`: its poll ended the future and the future was dropped. -/
def Pc.completing : Pc F T P W → Bool
  | .run (.complete _) => true
  | _ => false

omit [DecidableEq ι] [Fintype ι] in
/-- The destructions of a log stay in it. -/
theorem CallTrans.timesDropped_le {i : ι} {s s' : Shared ι F T P W} {a : Label F T P W}
    {pc pc' : Pc F T P W} (h : CallTrans i s pc a s' pc') :
    timesDropped s.log ≤ timesDropped s'.log := by
  cases h <;> simp [Event.isDrop]

omit [Fintype ι] in
/-- `complete` is called after the future was destroyed. -/
theorem reachable_completing (h : (taskMachine fut).Reachable G c) (j : ι) :
    (c.loc j).completing = true → 0 < timesDropped c.shared.log := by
  refine task_local (J := fun _ => True) (L := fun _ s pc => pc.completing = true →
    0 < timesDropped s.log) h (fun _ _ => trivial) (fun _ => nofun) ?_ ?_ j
  · intro c i a s' pc pc' _ _ _ hL ht
    cases ht with
    | drop => simp [Event.isDrop]
    | completeLock | completeSwap | completeSwapLost | completePublish | completeUnlock =>
      simpa [Event.isDrop, Pc.completing] using hL
    | _ => exact nofun
  · intro c i a s' pc pc' j _ _ _ _ ht hL hj
    exact Nat.lt_of_lt_of_le (hL hj) ht.timesDropped_le

omit [DecidableEq ι] [Fintype ι] in
/-- A destroyed future is not in the slot. -/
theorem FutureAt.slot_empty_of_dropped (h : FutureAt c) (hd : 0 < timesDropped c.shared.log) :
    c.shared.cell.future = none := by
  cases h with
  | slot _ _ h₀ | held _ _ _ _ h₀ => omega
  | destroyed hn _ _ => exact hn

/-- The call will clear the slot of a completed task, or find it completed and clear it: a `cancel`
that has claimed the task, and a `run` that has put the future back. -/
def Pc.clears : Pc F T P W → Bool
  | .cancel .clear | .run .load | .run (.cas _) | .run .clear => true
  | _ => false

/-- While a completed task has its future in the slot, some call will clear it. -/
def SlotCleared (c : TaskConfig ι F T P W) : Prop :=
  c.shared.cell.state = .completed → c.shared.cell.future.isSome →
    ∃ i, (c.loc i).clears = true

omit [Fintype ι] in
/-- Every step keeps `SlotCleared`. -/
theorem SlotCleared.step {i : ι} {a : Label F T P W} {s' : Shared ι F T P W} {pc pc' : Pc F T P W}
    (hf : FutureAt c) (hcas : pc.CasOk) (hcomp : pc.completing = true → 0 < timesDropped c.shared.log)
    (h : SlotCleared c) (hpc : c.loc i = pc) (ht : CallTrans i c.shared pc a s' pc') :
    SlotCleared ⟨s', Function.update c.loc i pc'⟩ := by
  unfold SlotCleared at h ⊢
  rw [exists_split i, hpc] at h
  simp only [exists_update]
  generalize Others Pc.clears c.loc i = D at h ⊢
  cases ht with
  | completeSwap =>
    -- the slot is empty: the future was destroyed before `complete` was called
    intro _ hs
    simp [hf.slot_empty_of_dropped (hcomp rfl)] at hs
  | runCas hs | wakeCas hs =>
    intro hs'
    cases hs'
  | runLoadScheduled hs' | runLoad hs' | wakeCasRunning hs' | claim hs' => simp_all
  | putBack | putBackOver | cancelSwap | runLoadCompleted | runCasLost | runCasWeak =>
    exact fun _ _ => .inl rfl
  | take | runClear | runClearUnwind | cancelClear | cancelClearUnwind => exact nofun
  | runClearEmpty hs | cancelClearEmpty hs => simp [hs]
  | _ => simpa [Pc.clears] using h

/-- `SlotCleared` in every state reached. -/
theorem reachable_slotCleared (h : (taskMachine fut).Reachable G c) : SlotCleared c := by
  refine task_invariant h (fun _ h => And.intro h (reachable_futureAt h)) nofun ?_
  rintro c i a s' _ pc' ⟨hr, hf⟩ hI _ rfl ht
  exact hI.step hf (reachable_casOk hr i) (reachable_completing hr i) rfl ht

/-! ## The result -/

/-- The future of a task has exactly one owner and is destroyed at most once, under every
interleaving of runs of any number of clones, wakes, cancels and polls of the `JoinHandle`, also
when its destructor panics: it is in the slot, held by exactly one call of `run`, or destroyed
(once); two calls never poll it at a time; no poll of it begins after one that returned `Ready` or
panicked; and a completed task that no call of `run` or `cancel` is working on has an empty slot. -/
theorem future_has_one_owner (fut : F) (h : (taskMachine fut).Reachable anyStep c) :
    FutureAt c ∧
    (∀ i j, (c.loc i).polling = true → (c.loc j).polling = true → i = j) ∧
    (∀ newer x older, c.shared.log = newer ++ x :: older → x.endsFuture = true →
      ∀ e ∈ newer, e.isPollBegan = false) ∧
    (c.shared.cell.state = .completed →
      (∀ i, (c.loc i).inRun = false ∧ (c.loc i).inCancel = false) →
      c.shared.cell.future = none) := by
  have hf := reachable_futureAt h
  have holds : ∀ i, (c.loc i).polling = true → (c.loc i).holdsFuture = true := by
    intro i hi
    cases hl : c.loc i with
    | run pc => cases pc <;> simp_all [Pc.polling, Pc.holdsFuture]
    | _ => simp [hl, Pc.polling] at hi
  refine ⟨hf, fun i j hi hj => hf.holder_unique (holds i hi) (holds j hj), ?_, ?_⟩
  · intro newer x older hlog hx
    exact PollsStop.newer hx (hlog ▸ (reachable_endedOk h).stop)
  · intro hs hquiet
    by_contra hne
    obtain ⟨i, hi⟩ := reachable_slotCleared h hs (Option.isSome_iff_ne_none.2 hne)
    obtain ⟨hr, hc⟩ := hquiet i
    cases hl : c.loc i <;> simp_all [Pc.clears, Pc.inRun, Pc.inCancel]

/-- A run in which the future cancels its own task while it is polled. -/
def selfCancelRun : List (Bool × Label ℕ ℕ ℕ ℕ) :=
  [(false, .runQueued), (false, .go), (false, .go), (true, .cancel), (true, .go), (true, .go),
    (true, .go), (true, .go), (false, .polled 1 .pending), (false, .go), (false, .go),
    (false, .go)]

/-- In that run, the call of `run` puts the future back, finds the task completed and clears the
slot. -/
theorem future_has_one_owner_self_cancel :
    ∃ c, (taskMachine 0).run (taskMachine 0).init selfCancelRun = some c ∧
      c.shared.cell.state = .completed ∧ c.shared.cell.future = none ∧ FutureAt c :=
  ⟨_, rfl, rfl, rfl, (future_has_one_owner 0 (Machine.reach_of_run selfCancelRun rfl)).1⟩

end Hypertile
