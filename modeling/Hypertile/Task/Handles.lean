import Hypertile.Task.Wake

/-!
# The handles of the code

A task whose handles come only from the code itself, that is the one it is spawned with, those of
`wake_by_ref` and those of the re-queue in `run`, has one token: it is the queued handle, the call
that runs it, the `wake_by_ref` about to enqueue, or the state `IDLE` (`CallTrans.handled`). So at
most one handle is queued, and a call of `run` that is going to deliver a wake is not disturbed: it
does so before it returns, or the task completes (`Pc.going_run`).
-/

namespace Hypertile

open Machine Machine.Threads

variable {ι F T P W : Type}

/-- Nobody runs or injects a clone of the handle. -/
def ownHandles (_ : TaskConfig ι F T P W) (a : ι × Label F T P W) : Prop :=
  a.2 ≠ .runClone ∧ a.2 ≠ .injectClone

/-! ## The token -/

/-- The token of a task that anyone may wake. -/
def TaskState.idleToken : TaskState → ℕ
  | .idle => 1
  | _ => 0

/-- The tokens of the shared state: the queued handles, and one for `IDLE`. -/
def Shared.handleTokens (s : Shared ι F T P W) : ℕ := s.queued + s.cell.state.idleToken

/-- The call holds the one handle of the task, or is about to enqueue it. -/
def Pc.holdsHandle : Pc F T P W → Bool
  | .run .claim | .run .take | .run (.poll _) | .run (.putBack _) | .run .load | .run (.cas _) => true
  | .run .requeue | .wake .enqueue => true
  | .run (.drop _ _) | .run (.complete (.lock _)) | .run (.complete (.swap _)) => true
  | _ => false

/-- The token of a call. -/
def Pc.handleTokens (pc : Pc F T P W) : ℕ := pc.holdsHandle.toNat

/-- No step makes a second token, unless it clones the handle. -/
theorem CallTrans.handled {i : ι} {s s' : Shared ι F T P W} {a : Label F T P W}
    {pc pc' : Pc F T P W} (h : CallTrans i s pc a s' pc') (hcas : pc.CasOk)
    (hrun : a ≠ .runClone) (hinj : a ≠ .injectClone) :
    s'.handleTokens + pc'.handleTokens ≤ s.handleTokens + pc.handleTokens := by
  cases h with
  | runClone => exact absurd rfl hrun
  | injectClone => exact absurd rfl hinj
  | wakeCas hs hr =>
    have hidle : s.cell.state = .idle := by
      rcases hcas with hcas | hcas
      · exact hs.trans hcas
      · exact absurd hcas hr
    simp [Shared.handleTokens, Pc.handleTokens, Pc.holdsHandle, TaskState.idleToken, hidle]
  | _ =>
    simp [Shared.handleTokens, Pc.handleTokens, Pc.holdsHandle, TaskState.idleToken] <;> omega

variable [DecidableEq ι] {fut : F} {c c' : TaskConfig ι F T P W}

section
variable [Fintype ι]

/-- There is at most one token in every state reached. -/
theorem reachable_handled (h : (taskMachine fut).Reachable ownHandles c) :
    total Shared.handleTokens Pc.handleTokens c ≤ 1 := by
  refine task_invariant (I := fun c => total Shared.handleTokens Pc.handleTokens c ≤ 1) h
    (fun _ h => reachable_casOk h) ?_ ?_
  · simp [total, Shared.handleTokens, Pc.handleTokens, Pc.holdsHandle, Shared.new,
      TaskState.idleToken]
  · rintro c i a s' _ pc' hcas hI ⟨hrun, hinj⟩ rfl ht
    exact (total_step_le (ht.handled (hcas i) hrun hinj)).trans hI

/-- Two calls that hold the handle are one call. -/
theorem holdsHandle_unique (h : (taskMachine fut).Reachable ownHandles c) {i j : ι}
    (hi : (c.loc i).holdsHandle = true) (hj : (c.loc j).holdsHandle = true) : i = j :=
  holder_unique (reachable_handled h) (by simp [Pc.handleTokens, hi])
    (by simp [Pc.handleTokens, hj])

end

/-! ## What `run` takes for granted -/

/-- A panic of a destructor has left `run`. -/
def Event.isRunUnwind : Event ι T P W → Bool
  | .runUnwound _ => true
  | _ => false

/-- No panic of a destructor has left `run`. -/
def Contained (c : TaskConfig ι F T P W) : Prop :=
  occurrences Event.isRunUnwind c.shared.log = 0

omit [DecidableEq ι] in
/-- A panic that left `run` stays in the log. -/
theorem CallTrans.contained {i : ι} {s s' : Shared ι F T P W} {a : Label F T P W}
    {pc pc' : Pc F T P W} (h : CallTrans i s pc a s' pc') :
    occurrences Event.isRunUnwind s.log ≤ occurrences Event.isRunUnwind s'.log := by
  cases h <;> simp [Event.isRunUnwind]

omit [DecidableEq ι] in
/-- A panic while an ended future is dropped leaves `run`. -/
theorem CallTrans.dropping_unwind {i : ι} {s s' : Shared ι F T P W} {a : Label F T P W}
    {pc pc' : Pc F T P W} (h : CallTrans i s pc a s' pc') (ha : a = .unwind)
    (hd : pc.dropping = true) : 0 < occurrences Event.isRunUnwind s'.log := by
  cases h with
  | dropUnwind => simp [Event.isRunUnwind]
  | runClearUnwind | cancelClearUnwind => cases hd
  | _ => cases ha

/-- The call clears the slot of a task that it found or made completed. -/
def Pc.clearing : Pc F T P W → Bool
  | .run .clear | .cancel .clear => true
  | _ => false

variable {G : TaskConfig ι F T P W → ι × Label F T P W → Prop}

/-- A call that clears the slot does so after the task has completed. -/
theorem reachable_clearing (h : (taskMachine fut).Reachable G c) (j : ι) :
    (c.loc j).clearing = true → c.shared.cell.state = .completed := by
  refine task_local (J := fun c => (taskMachine fut).Reachable G c)
    (L := fun _ s pc => pc.clearing = true → s.cell.state = .completed) h (fun _ h => h)
    (fun _ => nofun) ?_ ?_ j
  · intro c i a s' pc pc' _ _ _ _ ht hpc'
    cases ht with
    | runLoadCompleted hs => exact hs
    | cancelSwap => rfl
    | _ => cases hpc'
  · intro c i a s' pc pc' j hr _ hpc _ ht hL hj
    exact ht.completed (hpc ▸ reachable_casOk hr i) (hL hj)

/-- The call is in `complete` and has not moved the state yet. -/
def Pc.willComplete : Pc F T P W → Bool
  | .run (.complete (.lock _)) | .run (.complete (.swap _)) => true
  | _ => false

/-- A destroyed future is that of a completed task, or of one that is about to be. -/
def DropCompletes (c : TaskConfig ι F T P W) : Prop :=
  0 < timesDropped c.shared.log →
    c.shared.cell.state = .completed ∨ ∃ i, (c.loc i).willComplete = true

/-- A step that unwinds no drop of an ended future keeps `DropCompletes`. -/
theorem DropCompletes.step [Fintype ι] {i : ι} {a : Label F T P W} {s' : Shared ι F T P W}
    {pc pc' : Pc F T P W} (hr : (taskMachine fut).Reachable G c) (h : DropCompletes c)
    (hdrop : a = .unwind → pc.dropping = false) (hpc : c.loc i = pc)
    (ht : CallTrans i c.shared pc a s' pc') : DropCompletes ⟨s', Function.update c.loc i pc'⟩ := by
  have hclear := reachable_clearing hr i
  have hcas := reachable_casOk hr i
  have hslot := (reachable_futureAt hr).slot_empty (i := i)
  have hstays := ht.completed (hpc ▸ hcas)
  rw [hpc] at hclear hslot
  unfold DropCompletes at h ⊢
  rw [exists_split i, hpc] at h
  simp only [exists_update]
  generalize Others Pc.willComplete c.loc i = D at h ⊢
  cases ht with
  | drop => exact fun _ => .inr (.inl rfl)
  | dropUnwind => cases hdrop rfl
  | completeLock => exact fun _ => .inr (.inl rfl)
  | completeSwap | cancelSwap => exact fun _ => .inl rfl
  | completeSwapLost hs => exact fun _ => .inl hs
  | putBackOver hf => rw [hslot rfl] at hf; cases hf
  | runClear | runClearUnwind | cancelClear | cancelClearUnwind => exact fun _ => .inl (hclear rfl)
  | _ =>
    intro hd
    rcases h (by simpa [Event.isDrop] using hd) with hs | hw | hD
    · exact .inl (hstays hs)
    · cases hw
    · exact .inr (.inr hD)

section
variable [Fintype ι]

omit [DecidableEq ι] [Fintype ι] in
/-- A call that holds the future holds the handle. -/
theorem Pc.holdsFuture_holdsHandle {pc : Pc F T P W} (h : pc.holdsFuture = true) :
    pc.holdsHandle = true := by
  unfold Pc.holdsFuture at h
  split at h
  case h_4 => cases h
  all_goals rfl

omit [DecidableEq ι] [Fintype ι] in
/-- A call that is about to complete the task holds the handle. -/
theorem Pc.willComplete_holdsHandle {pc : Pc F T P W} (h : pc.willComplete = true) :
    pc.holdsHandle = true := by
  unfold Pc.willComplete at h
  split at h
  case h_3 => cases h
  all_goals rfl

/-- With the handles of the code alone, `run` finds the slot empty only when the task has
completed: whoever else could have the future would hold a second handle. -/
theorem empty_completed (h : (taskMachine fut).Reachable ownHandles c) (hd : DropCompletes c) {i : ι}
    (hi : c.loc i = .run .take) (hf : c.shared.cell.future = none) :
    c.shared.cell.state = .completed := by
  have hhandle : (c.loc i).holdsHandle = true := by rw [hi]; rfl
  cases reachable_futureAt h with
  | slot hs _ _ => rw [hf] at hs; cases hs
  | held j _ hj _ _ =>
    have hji := holdsHandle_unique h (Pc.holdsFuture_holdsHandle hj) hhandle
    rw [hji, hi] at hj
    cases hj
  | destroyed _ _ h₁ =>
    rcases hd (by omega) with hs | ⟨j, hj⟩
    · exact hs
    · have hji := holdsHandle_unique h (Pc.willComplete_holdsHandle hj) hhandle
      rw [hji, hi] at hj
      cases hj

/-- A step with the handles of the code alone, if no panic has left `run` after it, is one that
takes nothing for granted. -/
theorem step_noSwallow (h : (taskMachine fut).Reachable ownHandles c) (hd : DropCompletes c) {i : ι}
    {a : Label F T P W} {s' : Shared ι F T P W} {pc' : Pc F T P W}
    (ht : CallTrans i c.shared (c.loc i) a s' pc')
    (hc' : occurrences Event.isRunUnwind s'.log = 0) : noSwallow c (i, a) := by
  refine ⟨fun hi hf => empty_completed h hd hi hf, fun ha => ?_⟩
  by_contra hne
  rw [Bool.not_eq_false] at hne
  have hpos := ht.dropping_unwind ha hne
  omega

/-- A run with the handles of the code alone that no panic has left is one of those in which no wake
is lost. -/
theorem reachable_noSwallow (h : (taskMachine fut).Reachable ownHandles c) :
    Contained c → (taskMachine fut).Reachable noSwallow c ∧ DropCompletes c := by
  refine h.invariant_of (I := fun c => Contained c →
    (taskMachine fut).Reachable noSwallow c ∧ DropCompletes c)
    (J := (taskMachine fut).Reachable ownHandles) (fun _ h => h) (fun _ => ⟨.refl, nofun⟩) ?_
  rintro c ⟨i, a⟩ c' hr hI _ hst hc'
  obtain ⟨s', pc', hp, rfl⟩ := step_iff.1 hst
  have ht := callStep_trans hp
  obtain ⟨hns, hd⟩ := hI (Nat.eq_zero_of_le_zero (hc' ▸ ht.contained))
  have hG := step_noSwallow hr hd ht hc'
  exact ⟨.tail hns hG hst, hd.step hr hG.2 rfl ht⟩

end

/-! ## What a call does before it returns -/

/-- The call `i` of `run` does `done` before it returns, however the run goes on from `c` with the
handles of the code alone, as long as no panic leaves `run`. -/
def BeforeReturning (fut : F) (c : TaskConfig ι F T P W) (i : ι)
    (done : TaskConfig ι F T P W → Prop) : Prop :=
  (c.loc i).inRun = true ∧ ∀ c', (taskMachine fut).Reach ownHandles c c' → Contained c' →
    done c' ∨ (c'.loc i).inRun = true

/-- Since `c`, the call `i` has queued the task. -/
def Requeued (c : TaskConfig ι F T P W) (i : ι) (c' : TaskConfig ι F T P W) : Prop :=
  ∃ newer, c'.shared.log = newer ++ c.shared.log ∧ .enqueued i ∈ newer

omit [DecidableEq ι] in
/-- What was queued since `c` is in the log. -/
theorem Requeued.mem_log {i : ι} (h : Requeued c i c') : .enqueued i ∈ c'.shared.log := by
  obtain ⟨newer, hlog, hm⟩ := h
  rw [hlog]
  exact List.mem_append_left _ hm

/-- Since `c`, the call `i` has begun a poll or queued the task, or the task has completed. -/
def Delivered (c : TaskConfig ι F T P W) (i : ι) (c' : TaskConfig ι F T P W) : Prop :=
  c'.shared.cell.state = .completed ∨
    ∃ newer, c'.shared.log = newer ++ c.shared.log ∧ (.pollBegan i ∈ newer ∨ .enqueued i ∈ newer)

omit [DecidableEq ι] in
/-- Nothing but a claim and the end of the task leaves `SCHEDULED`. -/
theorem CallTrans.scheduled {i : ι} {s s' : Shared ι F T P W} {a : Label F T P W}
    {pc pc' : Pc F T P W} (h : CallTrans i s pc a s' pc') (hcas : pc.CasOk)
    (hclaim : pc ≠ .run .claim) (hs : s.cell.state = .scheduled) :
    s'.cell.state = .completed ∨ s'.cell.state = .scheduled := by
  cases h with
  | claim => exact absurd rfl hclaim
  | completeSwap | cancelSwap => exact .inl rfl
  | runCas hs' =>
    rw [hs] at hs'
    rcases hcas with hcas | hcas <;> rw [hcas] at hs' <;> cases hs'
  | wakeCas | wakeCasRunning => exact .inr rfl
  | _ => exact .inr hs

omit [DecidableEq ι] in
/-- A call that is going to deliver still is in a state that is as good. -/
theorem Pc.going_of_scheduled {pc : Pc F T P W} {st st' : TaskState} (h : pc.going st = true)
    (hst : st = .scheduled → st' = .scheduled) : pc.going st' = true := by
  unfold Pc.going at h
  split at h
  case h_1 | h_2 | h_3 | h_4 | h_5 => exact decide_eq_true (hst (of_decide_eq_true h))
  case h_6 | h_7 | h_8 | h_9 | h_10 => rfl
  case h_11 => cases h

omit [DecidableEq ι] in
/-- A call that is going to deliver holds the handle. -/
theorem Pc.going_holdsHandle {pc : Pc F T P W} {st : TaskState} (h : pc.going st = true) :
    pc.holdsHandle = true := by
  unfold Pc.going at h
  split at h
  case h_11 => cases h
  all_goals rfl

/-- What was delivered stays delivered. -/
theorem Delivered.step {i j : ι} {a : Label F T P W} {s' : Shared ι F T P W} {pc' : Pc F T P W}
    (h : Delivered c i c') (hcas : (c'.loc j).CasOk)
    (ht : CallTrans j c'.shared (c'.loc j) a s' pc') :
    Delivered c i ⟨s', Function.update c'.loc j pc'⟩ := by
  rcases h with hs | ⟨newer, hlog, hm⟩
  · exact .inl (ht.completed hcas hs)
  · obtain ⟨more, hmore⟩ := ht.log_append
    refine .inr ⟨more ++ newer, by rw [hmore, hlog, List.append_assoc], ?_⟩
    rcases hm with hm | hm
    · exact .inl (List.mem_append_right more hm)
    · exact .inr (List.mem_append_right more hm)

variable [Fintype ι]

/-- A step keeps what is delivered, or going to be delivered by the call `i`, since `c`. -/
theorem going_step (h : (taskMachine fut).Reachable ownHandles c') (hd : DropCompletes c')
    {i j : ι} {a : Label F T P W} {s' : Shared ι F T P W} {pc' : Pc F T P W}
    (hlog : ∃ newer, c'.shared.log = newer ++ c.shared.log)
    (hg : (c'.loc i).going c'.shared.cell.state = true)
    (ht : CallTrans j c'.shared (c'.loc j) a s' pc')
    (hc' : occurrences Event.isRunUnwind s'.log = 0) :
    Delivered c i ⟨s', Function.update c'.loc j pc'⟩ ∨
      (Function.update c'.loc j pc' i).going s'.cell.state = true := by
  have hcas := reachable_casOk h j
  rcases eq_or_ne i j with rfl | hij
  · rw [Function.update_self]
    obtain ⟨newer, hlog⟩ := hlog
    obtain ⟨htake, hdrop⟩ := step_noSwallow h hd ht hc'
    rcases ht.going hcas htake hdrop hg with (hs | hl | hl) | hg'
    · exact .inl (.inl hs)
    · exact .inl (.inr ⟨.pollBegan i :: newer, by rw [hl, hlog]; rfl, .inl (List.mem_cons_self ..)⟩)
    · exact .inl (.inr ⟨.enqueued i :: newer, by rw [hl, hlog]; rfl, .inr (List.mem_cons_self ..)⟩)
    · exact .inr hg'
  · -- the other call does not claim the task: it would hold a second handle
    rw [Function.update_of_ne hij]
    have hclaim : c'.loc j ≠ .run .claim := by
      intro hj
      exact hij (holdsHandle_unique h (Pc.going_holdsHandle hg) (by rw [hj]; rfl))
    by_cases hs : c'.shared.cell.state = .scheduled
    · rcases ht.scheduled hcas hclaim hs with hs' | hs'
      · exact .inl (.inl hs')
      · exact .inr (Pc.going_of_scheduled hg fun _ => hs')
    · exact .inr (Pc.going_of_scheduled hg fun hs' => absurd hs' hs)

/-- A call that is going to deliver has delivered or is still going to, however the run goes on with
the handles of the code alone. -/
theorem going_run (h : (taskMachine fut).Reachable ownHandles c) {i : ι}
    (hg : (c.loc i).going c.shared.cell.state = true)
    (hrun : (taskMachine fut).Reach ownHandles c c') (hc' : Contained c') :
    Delivered c i c' ∨ (c'.loc i).going c'.shared.cell.state = true := by
  refine (hrun.invariant_of (I := fun c' => Contained c' →
    (∃ newer, c'.shared.log = newer ++ c.shared.log) ∧
      (Delivered c i c' ∨ (c'.loc i).going c'.shared.cell.state = true))
    (J := (taskMachine fut).Reachable ownHandles) (fun _ h' => h.trans h')
    (fun _ => ⟨⟨[], rfl⟩, .inr hg⟩) ?_ hc').2
  rintro c₁ ⟨j, a⟩ c₂ hr hI _ hst hc₂
  obtain ⟨s', pc', hp, rfl⟩ := step_iff.1 hst
  have ht := callStep_trans hp
  have hc₁ : Contained c₁ := Nat.eq_zero_of_le_zero (hc₂ ▸ ht.contained)
  obtain ⟨⟨newer, hlog⟩, hdel⟩ := hI hc₁
  obtain ⟨more, hmore⟩ := ht.log_append
  refine ⟨⟨more ++ newer, by rw [hmore, hlog, List.append_assoc]⟩, ?_⟩
  rcases hdel with hdel | hg'
  · exact .inl (hdel.step (reachable_casOk hr j) ht)
  · exact going_step hr (reachable_noSwallow hr hc₁).2 ⟨newer, hlog⟩ hg' ht hc₂

/-! ## The result -/

/-- Where a wake that took effect since the last poll began, of a task that has not completed, is on
its way: a handle is queued, a `wake_by_ref` is about to enqueue one, or a call of `run` does `done`
before it returns. -/
def WakeAccounted (fut : F) (done : TaskConfig ι F T P W → ι → TaskConfig ι F T P W → Prop)
    (c : TaskConfig ι F T P W) : Prop :=
  undelivered c.shared.log = true → c.shared.cell.state ≠ .completed →
    0 < c.shared.queued ∨ (∃ i, (c.loc i).enqueues = true) ∨ ∃ i, BeforeReturning fut c i (done c i)

/-- No wake of a task is lost or duplicated with the handles of the code alone, under every
interleaving of `run`, `wake_by_ref`, `cancel` and polls of the `JoinHandle`. At most one handle is
queued; as long as no panic of a destructor has left `run`, a wake that took effect since the last
poll began is in a queued handle, with a `wake_by_ref` about to enqueue, or with a call of `run`
that polls the task, queues it again or completes it before it returns, and the task is not `IDLE`;
and once the state is `COMPLETED` it never changes again. -/
theorem wakes_neither_lost_nor_duplicated (h : (taskMachine fut).Reachable ownHandles c) :
    c.shared.queued ≤ 1 ∧
    (Contained c → WakeAccounted fut Delivered c) ∧
    (Contained c → c.shared.cell.state = .idle → undelivered c.shared.log = false) ∧
    (c.shared.cell.state = .completed →
      ∀ c', (taskMachine fut).Reach ownHandles c c' → c'.shared.cell.state = .completed) := by
  have htot := reachable_handled h
  refine ⟨?_, ?_, ?_, ?_⟩
  · rw [total, Shared.handleTokens] at htot
    omega
  · intro hc hu hs
    rcases (reachable_wakeKept (reachable_noSwallow h hc).1).underWay hu hs with hq | he | ⟨i, hi⟩
    · exact .inl hq
    · exact .inr (.inl he)
    · refine .inr (.inr ⟨i, Pc.going_inRun hi, fun c' hrun hc' => ?_⟩)
      rcases going_run h hi hrun hc' with hdel | hi'
      · exact .inl hdel
      · exact .inr (Pc.going_inRun hi')
  · intro hc hs
    by_contra hu
    rw [Bool.not_eq_false] at hu
    obtain ⟨i, hi⟩ := (reachable_wakeKept (reachable_noSwallow h hc).1).undelivered hu (.inr hs)
    have hhandle := Pc.going_holdsHandle (Pc.takes_going hi .idle)
    have hle := le_total Shared.handleTokens Pc.handleTokens c i
    simp only [Shared.handleTokens, hs, TaskState.idleToken, Pc.handleTokens, hhandle,
      Bool.toNat_true] at hle
    omega
  · intro hs c' hrun
    refine hrun.invariant_of (I := fun c' => c'.shared.cell.state = .completed)
      (J := (taskMachine fut).Reachable ownHandles) (fun _ h' => h.trans h') hs ?_
    rintro c₁ ⟨j, a⟩ c₂ hr hI _ hst
    obtain ⟨s', pc', hp, rfl⟩ := step_iff.1 hst
    exact (callStep_trans hp).completed (reachable_casOk hr j) hI

instance [DecidableEq F] [DecidableEq T] [DecidableEq P] [DecidableEq W]
    (c : TaskConfig ι F T P W) (a : ι × Label F T P W) : Decidable (ownHandles c a) :=
  inferInstanceAs (Decidable (_ ∧ _))

/-- A task is polled, found `IDLE` by a wake, queued by it and popped. -/
def wokenThenPoppedRun : List (Bool × Label ℕ ℕ ℕ ℕ) :=
  [(false, .runQueued), (false, .go), (false, .go), (false, .polled 1 .pending), (false, .go),
    (false, .go), (false, .go), (true, .wake), (true, .go), (true, .go), (true, .go),
    (false, .runQueued)]

/-- In that run the wake is with the call of `run` that has just begun. -/
theorem wakes_accounted_when_popped :
    ∃ c, (taskMachine 0).runIf ownHandles (taskMachine 0).init wokenThenPoppedRun = some c ∧
      undelivered c.shared.log = true ∧ WakeAccounted 0 Delivered c :=
  ⟨_, rfl, rfl, (wakes_neither_lost_nor_duplicated
    (Machine.reach_of_runIf wokenThenPoppedRun rfl)).2.1 rfl⟩

/-- The popped handle polls the task, which is ready. -/
def pollReadyRun : List (Bool × Label ℕ ℕ ℕ ℕ) :=
  [(false, .go), (false, .go), (false, .polled 2 (.ready 5)), (false, .go), (false, .go),
    (false, .go), (false, .go), (false, .go), (false, .go)]

/-- A task is woken while it is polled, the poll is ready, and the drop of the future panics. -/
def readyThenUnwindRun : List (Bool × Label ℕ ℕ ℕ ℕ) :=
  [(false, .runQueued), (false, .go), (false, .go), (true, .wake), (true, .go), (true, .go),
    (false, .polled 1 (.ready 5)), (false, .unwind)]

/-- The call of `run` that has a wake need not queue the task again: it may poll it instead. And
after a panic of a destructor has left `run`, a wake may be with nobody. -/
theorem wake_not_requeued :
    (∃ c, (taskMachine 0).run (taskMachine 0).init wokenThenPoppedRun = some c ∧
      ¬ WakeAccounted 0 Requeued c) ∧
    ∃ c, (taskMachine 0).run (taskMachine 0).init readyThenUnwindRun = some c ∧
      ¬ WakeAccounted 0 Delivered c := by
  refine ⟨⟨_, rfl, fun h => ?_⟩, ⟨_, rfl, fun h => ?_⟩⟩
  · rcases h rfl nofun with hq | ⟨i, hi⟩ | ⟨i, hi, hrun⟩
    · cases hq
    · revert i
      decide
    · -- the call of `run` returns from the poll without having queued the task
      have hi₀ : i = false := by
        clear hrun
        revert i
        decide
      subst hi₀
      rcases hrun _ (Machine.reach_of_runIf pollReadyRun rfl) rfl with hreq | hin
      · exact absurd hreq.mem_log (by decide)
      · cases hin
  · rcases h rfl nofun with hq | ⟨i, hi⟩ | ⟨i, hi, -⟩
    · cases hq
    all_goals revert i; decide

end Hypertile
