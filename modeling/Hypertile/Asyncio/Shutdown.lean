import Hypertile.Asyncio.Executor

/-!
# A shutdown that waits

A `shutdown(wait=True)` waits for the futures that it finds in `_pending` at one moment. `submit`
reads `_shutdown` first and adds its future later, so a future can come into the set after the last
look of a shutdown that has not seen it. Where this does not happen, every future that was ever
returned is done once such a shutdown has returned, and every later `submit` raises
(`shutdown_waits`).
-/

namespace Hypertile

open Machine Machine.Threads ExecutorShared

variable {κ R ι : Type} [DecidableEq κ]

/-! ## Futures -/

namespace ExecutorShared

/-- The future is done: cancelled or finished. -/
def Final (s : ExecutorShared κ R) (fut : κ) : Prop :=
  ∃ x, s.submission fut = some x ∧ x.state ≠ .pending

/-- `_pending` has had the future, and it is not done. -/
def Open (s : ExecutorShared κ R) (fut : κ) : Prop :=
  ∃ x, s.submission fut = some x ∧ x.added = true ∧ x.state = .pending

/-- `_pending` has had the future. -/
def Added (s : ExecutorShared κ R) (fut : κ) : Prop :=
  ∃ x, s.submission fut = some x ∧ x.added = true

end ExecutorShared

namespace ExecutorPc

/-- The thread is in a `shutdown` that has set the flag. -/
def flagged : ExecutorPc κ R → Bool
  | .listCancel _ | .cancelling .. | .look | .listWait | .waiting _ => true
  | .discard _ (.cancelling ..) => true
  | _ => false

/-- The future that the thread has added in `submit`. -/
def submits : ExecutorPc κ R → Option κ
  | .submitCleanup fut | .submitSpawn fut | .submitRegister fut | .submitReturn fut => some fut
  | .discard _ (.submitSpawn fut) => some fut
  | _ => none

end ExecutorPc

section
variable {s s' : ExecutorShared κ R} {m m' : ExecutorPc κ R} {a : ExecutorAct κ R}

omit [DecidableEq κ] in
/-- `_cleanup` leaves a thread where it is in `shutdown` and `submit`. -/
theorem afterState_eq (fut : κ) (x : Submission R) (next : AfterCleanup κ) :
    (afterState fut x next).flagged = next.pc (R := R).flagged ∧
      (afterState fut x next).submits = next.pc (R := R).submits ∧
      ∀ rest, afterState fut x next ≠ .waiting rest := by
  unfold afterState
  split <;> cases next <;> exact ⟨rfl, rfl, nofun⟩

/-- A step sets at most one submission: it creates one, or changes it as is said. -/
theorem ExecutorTrans.submission (h : ExecutorTrans s m a s' m') :
    s'.submission = s.submission ∨
      (∃ fut, m' = .submitAdd fut ∧ s.submission fut = none ∧
        s'.submission = Function.update s.submission fut (some .new)) ∨
      ∃ fut x x', s.submission fut = some x ∧
        s'.submission = Function.update s.submission fut (some x') ∧
        (x.state ≠ .pending → x'.state ≠ .pending) ∧ (x.added = true → x'.added = true) ∧
        (x'.added = true → x.added = true ∨ m = .submitAdd fut ∧ a = .go) := by
  cases h with
  | create hflag hnew => exact .inr (.inl ⟨_, rfl, hnew, rfl⟩)
  | add hx => exact .inr (.inr ⟨_, _, _, hx, rfl, id, fun _ => rfl, fun _ => .inr ⟨rfl, rfl⟩⟩)
  | cleanup hx | spawn hx | fallback hx | register hx | start hx | startDead hx | finish hx
  | callOnDone hx => exact .inr (.inr ⟨_, _, _, hx, rfl, id, id, .inl⟩)
  | cancel hm hx | resolve hx => exact .inr (.inr ⟨_, _, _, hx, rfl, fun _ => nofun, id, .inl⟩)
  | _ => exact .inl rfl

/-- A submission stays one, and what every step keeps of it lasts. -/
theorem ExecutorTrans.submission_of_some (h : ExecutorTrans s m a s' m') {fut : κ}
    {x : Submission R} (hx : s.submission fut = some x) :
    ∃ x', s'.submission fut = some x' ∧ (x.state ≠ .pending → x'.state ≠ .pending) ∧
      (x.added = true → x'.added = true) := by
  rcases h.submission with hsame | ⟨cb, -, hnew, hset⟩ | ⟨cb, y, y', hy, hset, hdone, hadded, -⟩
  · exact ⟨x, hsame ▸ hx, id, id⟩
  · refine ⟨x, ?_, id, id⟩
    rw [hset, Function.update_of_ne, hx]
    rintro rfl
    rw [hnew] at hx
    cases hx
  · by_cases hcb : fut = cb
    · subst hcb
      rw [hy] at hx
      cases hx
      exact ⟨y', by rw [hset, Function.update_self], hdone, hadded⟩
    · exact ⟨x, by rw [hset, Function.update_of_ne hcb, hx], id, id⟩

/-- A future that is done stays done. -/
theorem ExecutorTrans.final (h : ExecutorTrans s m a s' m') {fut : κ} (hf : s.Final fut) :
    s'.Final fut := by
  obtain ⟨x, hx, hst⟩ := hf
  obtain ⟨x', hx', hdone, -⟩ := h.submission_of_some hx
  exact ⟨x', hx', hdone hst⟩

/-- A future that was added stays added. -/
theorem ExecutorTrans.added (h : ExecutorTrans s m a s' m') {fut : κ} (hf : s.Added fut) :
    s'.Added fut := by
  obtain ⟨x, hx, hadded⟩ := hf
  obtain ⟨x', hx', -, hkeep⟩ := h.submission_of_some hx
  exact ⟨x', hx', hkeep hadded⟩

/-- A future comes to be open when it is added. -/
theorem ExecutorTrans.open_of (h : ExecutorTrans s m a s' m') {fut : κ} (hf : s'.Open fut) :
    s.Open fut ∨ m = .submitAdd fut ∧ a = .go := by
  obtain ⟨x, hx, hadded, hst⟩ := hf
  rcases h.submission with hsame | ⟨cb, -, hnew, hset⟩ | ⟨cb, y, y', hy, hset, hkeep, -, hback⟩
  · exact .inl ⟨x, hsame ▸ hx, hadded, hst⟩
  · rw [hset] at hx
    by_cases hcb : fut = cb
    · subst hcb
      rw [Function.update_self] at hx
      cases hx
      cases hadded
    · rw [Function.update_of_ne hcb] at hx
      exact .inl ⟨x, hx, hadded, hst⟩
  · rw [hset] at hx
    by_cases hcb : fut = cb
    · subst hcb
      rw [Function.update_self] at hx
      cases hx
      refine (hback hadded).imp_left fun hadded => ⟨y, hy, hadded, ?_⟩
      by_contra hno
      exact hkeep hno hst
    · rw [Function.update_of_ne hcb] at hx
      exact .inl ⟨x, hx, hadded, hst⟩

end

/-! ## What holds of every run -/

/-- What holds of a thread in every run: what it discards is done, what it submits was added, and in
a `shutdown` the flag is set. -/
structure ThreadInv (s : ExecutorShared κ R) (m : ExecutorPc κ R) : Prop where
  discards : ∀ fut next, m = .discard fut next → s.Final fut
  submits : ∀ fut, m.submits = some fut → s.Added fut
  flagged : m.flagged = true → s.shutdown = true

/-- What holds of every run: an open future is in `_pending`, a future that was returned was added,
and the flag is set once a shutdown has waited. -/
structure ShutdownInv (c : ExecutorConfig κ R ι) : Prop where
  thread : ∀ i, ThreadInv c.shared (c.loc i)
  pending : ∀ fut, c.shared.Open fut → fut ∈ c.shared.pending
  returned : ∀ fut ∈ c.shared.returned, c.shared.Added fut
  waited : c.shared.waited = true → c.shared.shutdown = true

section
variable {s s' : ExecutorShared κ R} {m m' : ExecutorPc κ R} {a : ExecutorAct κ R}

/-- The flag is not reset. -/
theorem ExecutorTrans.shutdown_flag (h : ExecutorTrans s m a s' m') (hflag : s.shutdown = true) :
    s'.shutdown = true := by
  cases h with
  | setFlag => rfl
  | _ => exact hflag

/-- A step keeps what holds of the other threads. -/
theorem ThreadInv.other {n : ExecutorPc κ R} (hI : ThreadInv s n) (h : ExecutorTrans s m a s' m') :
    ThreadInv s' n where
  discards fut next hn := h.final (hI.discards fut next hn)
  submits fut hn := h.added (hI.submits fut hn)
  flagged hn := h.shutdown_flag (hI.flagged hn)

omit [DecidableEq κ] in
/-- What holds of a thread that is about to go on after `_cleanup`, where it holds of the thread
before. -/
theorem ThreadInv.afterState {fut : κ} {x : Submission R} {next : AfterCleanup κ}
    (hfinal : s.Final fut) (hsubmits : ∀ cb, (next.pc (R := R)).submits = some cb → s.Added cb)
    (hflagged : (next.pc (R := R)).flagged = true → s.shutdown = true) :
    ThreadInv s (afterState fut x next) := by
  obtain ⟨hf, hs, -⟩ := afterState_eq fut x next
  refine ⟨fun cb next' he => ?_, fun cb hcb => hsubmits cb (hs ▸ hcb),
    fun hfl => hflagged (hf ▸ hfl)⟩
  unfold ExecutorShared.afterState at he
  split at he
  · cases he
    exact hfinal
  · cases next <;> cases he

/-- A step keeps what holds of the thread that moves. -/
theorem ThreadInv.own (hI : ThreadInv s m) (h : ExecutorTrans s m a s' m') : ThreadInv s' m' := by
  have hflag := h.shutdown_flag
  have hfinal : ∀ fut, s.Final fut → s'.Final fut := fun _ => h.final
  have hadded : ∀ fut, s.Added fut → s'.Added fut := fun _ => h.added
  cases h with
  | submit | shutdown | refuse | create | ret | lookEmpty | waited | start | startDead | finish
  | callOnDone | raise => exact ⟨nofun, nofun, nofun⟩
  | add hx =>
    refine ⟨nofun, fun cb hcb => ?_, nofun⟩
    cases hcb
    exact ⟨_, Function.update_self .., rfl⟩
  | cleanup | spawn | fallback | register =>
    refine ⟨nofun, fun cb hcb => ?_, nofun⟩
    cases hcb
    exact hadded _ (hI.submits _ rfl)
  | cleanupDead hx hst =>
    refine ⟨fun cb next he => ?_, fun cb hcb => ?_, nofun⟩
    · cases he
      exact ⟨_, hx, hst⟩
    · cases hcb
      exact hI.submits _ rfl
  | @discard fut next =>
    have hflagged := hI.flagged
    have hsubmits := hI.submits
    cases next with
    | idle => exact ⟨nofun, nofun, nofun⟩
    | submitSpawn cb => exact ⟨nofun, fun cb' hcb => hadded _ (hsubmits cb' hcb), nofun⟩
    | cancelling rest wait => exact ⟨nofun, nofun, fun _ => hflagged rfl⟩
  | @cancel fut x _ next _ hm hx =>
    have hfin : (s.set fut { x with state := .cancelled }).Final fut :=
      ⟨_, Function.update_self .., nofun⟩
    rcases hm with ⟨rfl, -, rfl⟩ | ⟨rest, wait, rfl, -, rfl⟩
    · exact .afterState hfin nofun nofun
    · exact .afterState hfin nofun fun _ => hI.flagged rfl
  | cancelNot hm =>
    rcases hm with ⟨rfl, -, rfl⟩ | ⟨rest, wait, rfl, -, rfl⟩
    · exact ⟨nofun, nofun, nofun⟩
    · exact ⟨nofun, nofun, fun _ => hI.flagged rfl⟩
  | @setFlag wait cancelFutures =>
    cases cancelFutures <;> cases wait <;> exact ⟨nofun, nofun, fun _ => rfl⟩
  | @cancelled wait => cases wait <;> exact ⟨nofun, nofun, fun _ => hI.flagged rfl⟩
  | listCancel | look | listWait | finished => exact ⟨nofun, nofun, fun _ => hI.flagged rfl⟩
  | @resolve fut outcome x hx hst =>
    exact .afterState ⟨_, Function.update_self .., nofun⟩ nofun nofun

/-- An open future stays in `_pending`. -/
theorem ExecutorTrans.pending (h : ExecutorTrans s m a s' m') (hm : ThreadInv s m)
    (hpending : ∀ fut, s.Open fut → fut ∈ s.pending) {fut : κ} (hopen : s'.Open fut) :
    fut ∈ s'.pending := by
  have hold : m ≠ .submitAdd fut → fut ∈ s.pending :=
    fun hne => hpending fut ((h.open_of hopen).resolve_right fun hadd => hne hadd.1)
  cases h with
  | @add cb x hx =>
    by_cases hcb : cb = fut
    · subst hcb
      exact .head _
    · exact .tail _ (hold fun he => hcb (by cases he; rfl))
  | @discard cb next =>
    refine List.mem_filter.2 ⟨hold nofun, ?_⟩
    refine decide_eq_true ?_
    rintro rfl
    obtain ⟨x, hx, hst⟩ := hm.discards fut next rfl
    obtain ⟨y, hy, -, hopen⟩ := hopen
    change s.submission fut = some y at hy
    rw [hx] at hy
    cases hy
    exact hst hopen
  | cancel hm' =>
    refine hold ?_
    rintro rfl
    rcases hm' with ⟨he, -⟩ | ⟨_, _, he, -⟩ <;> cases he
  | cancelNot hm' =>
    refine hold ?_
    rintro rfl
    rcases hm' with ⟨he, -⟩ | ⟨_, _, he, -⟩ <;> cases he
  | _ => exact hold nofun

/-- A future is returned by the thread that submitted it. -/
theorem ExecutorTrans.returned (h : ExecutorTrans s m a s' m') {fut : κ} (hr : fut ∈ s'.returned) :
    fut ∈ s.returned ∨ m.submits = some fut := by
  cases h with
  | ret =>
    rcases List.mem_cons.1 hr with rfl | hr
    · exact .inr rfl
    · exact .inl hr
  | _ => exact .inl hr

end

section
variable [DecidableEq ι] {c c' : ExecutorConfig κ R ι} {a : ι × ExecutorAct κ R}

omit [DecidableEq ι] in
/-- The invariant holds at the start. -/
theorem ShutdownInv.init : ShutdownInv (executorStart κ R ι) where
  thread _ := ⟨nofun, nofun, nofun⟩
  pending := nofun
  returned := nofun
  waited := nofun

/-- A step keeps the invariant. -/
theorem ShutdownInv.step (hI : ShutdownInv c) (hst : (executorMachine κ R ι).step c a = some c') :
    ShutdownInv c' := by
  obtain ⟨i, a⟩ := a
  obtain ⟨s', m', hp, rfl⟩ := step_iff.1 hst
  have ht : ExecutorTrans c.shared (c.loc i) a s' m' := executorStep_trans hp
  refine ⟨?_, fun fut => ht.pending (hI.thread i) hI.pending, fun fut hr => ?_, ?_⟩
  · exact (Function.forall_update_iff c.loc fun _ m => ThreadInv s' m).2
      ⟨(hI.thread i).own ht, fun j _ => (hI.thread j).other ht⟩
  · refine ht.added ((ht.returned hr).elim (hI.returned fut) ?_)
    exact (hI.thread i).submits fut
  · intro hwaited
    refine ht.shutdown_flag ?_
    change s'.waited = true at hwaited
    generalize hm : c.loc i = m at ht
    have hflagged := (hI.thread i).flagged
    rw [hm] at hflagged
    cases ht with
    | lookEmpty | waited => exact hflagged rfl
    | _ => exact hI.waited hwaited

/-! ## Shutdowns that wait for everything -/

/-- No future is added to `_pending` when a shutdown that waits has taken its last look at it. -/
def addsBeforeLook (c : ExecutorConfig κ R ι) (a : ι × ExecutorAct κ R) : Prop :=
  ∀ fut, c.loc a.1 = .submitAdd fut → a.2 = .go →
    c.shared.waited = false ∧ ∀ j rest, c.loc j ≠ .waiting rest

/-- Once a shutdown that waits has returned, the flag is set, so that every later `submit` raises,
and every future that was returned is done. -/
structure WaitedForAll (c : ExecutorConfig κ R ι) : Prop where
  flag : c.shared.waited = true → c.shared.shutdown = true
  done : c.shared.waited = true → ∀ fut ∈ c.shared.returned, c.shared.Final fut

/-- What holds of the runs that add no future after the last look: a shutdown waits for all that is
open, and nothing is open once it has returned. -/
structure CoveredInv (c : ExecutorConfig κ R ι) : Prop where
  inv : ShutdownInv c
  waiting : ∀ i rest, c.loc i = .waiting rest → ∀ fut, c.shared.Open fut → fut ∈ rest
  waited : c.shared.waited = true → ∀ fut, ¬ c.shared.Open fut

omit [DecidableEq ι] in
/-- A thread comes to wait for what it has listed, and goes on after a future that is done. -/
theorem ExecutorTrans.to_waiting {s s' : ExecutorShared κ R} {m : ExecutorPc κ R}
    {a : ExecutorAct κ R} {rest : List κ} (h : ExecutorTrans s m a s' (.waiting rest)) :
    s' = s ∧ (m = .listWait ∧ rest = s.pending ∨
      ∃ fut, m = .waiting (fut :: rest) ∧ s.Final fut) := by
  generalize hm' : ExecutorPc.waiting rest = m' at h
  cases h with
  | listWait =>
    cases hm'
    exact ⟨rfl, .inl ⟨rfl, rfl⟩⟩
  | finished hx hst =>
    cases hm'
    exact ⟨rfl, .inr ⟨_, rfl, _, hx, by rw [hst]; nofun⟩⟩
  | cancel | resolve => exact absurd hm'.symm ((afterState_eq _ _ _).2.2 rest)
  | @cancelNot _ _ _ next => cases next <;> cases hm'
  | @discard _ next => cases next <;> cases hm'
  | @setFlag wait cancelFutures => cases cancelFutures <;> cases wait <;> cases hm'
  | @cancelled wait => cases wait <;> cases hm'
  | _ => cases hm'

/-- A step that adds no future after the last look keeps that. -/
theorem CoveredInv.step (hI : CoveredInv c) (hadds : addsBeforeLook c a)
    (hst : (executorMachine κ R ι).step c a = some c') : CoveredInv c' := by
  have hinv := hI.inv.step hst
  obtain ⟨i, a⟩ := a
  obtain ⟨s', m', hp, rfl⟩ := step_iff.1 hst
  have ht : ExecutorTrans c.shared (c.loc i) a s' m' := executorStep_trans hp
  have hopen : ∀ fut, s'.Open fut → c.shared.Open fut ∨ c.loc i = .submitAdd fut ∧ a = .go :=
    fun _ => ht.open_of
  refine ⟨hinv, fun j rest hj fut hf => ?_, fun hwaited fut hf => ?_⟩
  · change Function.update c.loc i m' j = .waiting rest at hj
    by_cases hji : j = i
    · subst hji
      rw [Function.update_self] at hj
      subst hj
      obtain ⟨rfl, ⟨-, rfl⟩ | ⟨cb, hm, hfinal⟩⟩ := ht.to_waiting
      · exact hI.inv.pending fut hf
      · refine (List.mem_cons.1 (hI.waiting j _ hm fut hf)).resolve_left ?_
        rintro rfl
        obtain ⟨x, hx, hst⟩ := hfinal
        obtain ⟨y, hy, -, hpend⟩ := hf
        rw [hx] at hy
        cases hy
        exact hst hpend
    · rw [Function.update_of_ne hji] at hj
      refine hI.waiting j rest hj fut ((hopen fut hf).resolve_right ?_)
      rintro ⟨hadd, ha⟩
      exact (hadds fut hadd ha).2 j rest hj
  · change s'.waited = true at hwaited
    have hlate : c.shared.waited = true → False := by
      intro hw
      refine hI.waited hw fut ((hopen fut hf).resolve_right ?_)
      rintro ⟨hadd, ha⟩
      rw [(hadds fut hadd ha).1] at hw
      cases hw
    have hwaiting := hI.waiting i
    generalize c.loc i = m at ht hwaiting
    cases ht with
    | lookEmpty hempty =>
      have hmem := hI.inv.pending fut hf
      rw [hempty] at hmem
      cases hmem
    | waited => exact absurd (hwaiting [] rfl fut hf) List.not_mem_nil
    | _ => exact hlate hwaited

omit [DecidableEq κ] [DecidableEq ι] in
/-- A shutdown that has waited for all that was open has waited for everything. -/
theorem CoveredInv.waitedForAll (hI : CoveredInv c) : WaitedForAll c where
  flag := hI.inv.waited
  done hwaited fut hr := by
    obtain ⟨x, hx, hadded⟩ := hI.inv.returned fut hr
    exact ⟨x, hx, fun hst => hI.waited hwaited fut ⟨x, hx, hadded, hst⟩⟩

end

/-- A thread submits a call, and another one shuts the executor down and comes to wait. -/
def submitThenShutdown : List (Bool × ExecutorAct Unit Unit) :=
  (false, .submit ()) :: List.replicate 6 (false, .go) ++
    (true, .shutdown true false) :: List.replicate 3 (true, .go)

/-- The call runs to its end, and the shutdown returns. -/
def finishWhileWaiting : List (Bool × ExecutorAct Unit Unit) :=
  [(false, .start ()), (false, .finish () ()), (false, .callOnDone ())] ++
    List.replicate 2 (false, .go) ++ List.replicate 2 (true, .go)

/-- A thread is about to add its future when another one shuts the executor down and finds nothing
to wait for. -/
def submitAcrossShutdown : List (Bool × ExecutorAct Unit Unit) :=
  [(false, .submit ()), (false, .go), (true, .shutdown true false), (true, .go), (true, .go)] ++
    List.replicate 5 (false, .go)

end Hypertile
