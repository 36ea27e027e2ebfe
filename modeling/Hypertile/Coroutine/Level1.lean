import Hypertile.Coroutine.Rest

/-!
# The Level 1 executor

The model of `run_level1`: a thread spawns a coroutine with a done callback that sends on a channel,
and receives from it with a timeout, between which it lets the interpreter check for signals. Nobody
else has the cancellation token. The callback is owned by the coroutine task, and so is the sender;
the task is owned by its queued handles, by the threads that run it and by the wake callbacks. An
object can drop a wake callback that it has not fired, and keep one that it has.

What `run_level1` returns or raises, unless a signal handler raises, is the outcome of the
coroutine; it reports a disconnected channel only where the coroutine will never end
(`level1_returns`). It does not wait for a coroutine that has ended, nor for one that is gone: where
nothing is left to do it has returned, or the coroutine waits for an object that has not fired its
callback, or can only be kept by objects that have fired theirs (`level1_rests`).
-/

namespace Hypertile

open Machine Machine.Threads

variable {V E ι : Type}

/-! ## The caller -/

/-- How `run_level1` ends: it returns a value, possibly `None`, or raises the error of the
coroutine, that of a signal handler, or that of a channel which is disconnected. -/
inductive Level1Result (V E : Type) where
  | returned (value : Option V)
  | raised (err : CoroErr E)
  | interrupted (err : E)
  | disconnected

/-- The value and the error that the done callback is called with; one of them is `None`. -/
def doneArgs : Except (CoroErr E) V → Option V × Option (CoroErr E)
  | .ok value => (some value, none)
  | .error err => (none, some err)

/-- What `run_level1` makes of a value and an error. -/
def level1Result : Option V × Option (CoroErr E) → Level1Result V E
  | (_, some err) => .raised err
  | (value, none) => .returned value

/-- Where the caller stands: in `recv_timeout`, in `check_signals`, or out of `run_level1`. -/
inductive Level1Pc (V E : Type) where
  | receiving
  | checking
  | left (result : Level1Result V E)

/-- The caller has the receiver. -/
def Level1Pc.waits : Level1Pc V E → Bool
  | .left _ => false
  | _ => true

/-- The coroutine task, the messages that were sent and not received, how many wake callbacks were
fired and are still kept, the caller, and the threads. -/
structure Level1Config (V E ι : Type) where
  task : CoroTask V E
  inbox : List (Option V × Option (CoroErr E))
  spent : ℕ
  caller : Level1Pc V E
  loc : ι → CoroPc V E

/-- What is chosen: a step of a thread, an object that drops a wake callback that it has not fired
or has, or a step of the caller; what a signal handler raises, if anything. -/
inductive Level1Act (V E ι : Type) where
  | thread (i : ι) (a : CoroAct V E)
  | forget
  | collect
  | receive
  | timeout
  | checkSignals (err : Option E)

/-! ## The steps -/

/-- The thread owns the task, or runs a wake callback that does. -/
def CoroPc.owns : CoroPc V E → Bool
  | .idle | .unwound => false
  | _ => true

/-- The thread owns the done callback that it calls. -/
def CoroPc.calls : CoroPc V E → Bool
  | .calling => true
  | _ => false

/-- What the thread sends with its next step. -/
def CoroPc.sent (s : CoroTask V E) : CoroPc V E → List (Option V × Option (CoroErr E))
  | .notify outcome => if s.doneCallback then [doneArgs outcome] else []
  | _ => []

/-- The wake callbacks that were fired and run to their end with the next step of the thread. -/
def CoroPc.fires : CoroPc V E → ℕ
  | .injecting => 1
  | _ => 0

namespace Level1Config

variable [Fintype ι]

/-- The task is owned. -/
def alive (c : Level1Config V E ι) : Bool :=
  decide (0 < c.task.queued + c.task.hooks + c.spent) || decide (∃ i, (c.loc i).owns = true)

/-- The sender is owned, by the task or by a thread that calls the done callback. -/
def sender (c : Level1Config V E ι) : Bool :=
  c.alive && c.task.doneCallback || decide (∃ i, (c.loc i).calls = true)

end Level1Config

/-- A step. -/
def level1Step [Fintype ι] [DecidableEq ι] (c : Level1Config V E ι) :
    Level1Act V E ι → Option (Level1Config V E ι)
  | .thread _ .cancel => none
  | .thread i a =>
    (coroStep c.task (c.loc i) a).map fun r =>
      { c with
        task := r.1
        inbox := if c.caller.waits then c.inbox ++ (c.loc i).sent c.task else c.inbox
        spent := c.spent + (c.loc i).fires
        loc := Function.update c.loc i r.2 }
  | .forget =>
    if 0 < c.task.hooks then
      some { c with task := { c.task with hooks := c.task.hooks - 1 } }
    else none
  | .collect => if 0 < c.spent then some { c with spent := c.spent - 1 } else none
  | .receive =>
    match c.caller, c.inbox with
    | .receiving, msg :: rest => some { c with inbox := rest, caller := .left (level1Result msg) }
    | .receiving, [] => if c.sender then none else some { c with caller := .left .disconnected }
    | _, _ => none
  | .timeout =>
    match c.caller with
    | .receiving => some { c with caller := .checking }
    | _ => none
  | .checkSignals err =>
    match c.caller with
    | .checking =>
      match err with
      | some err => some { c with caller := .left (.interrupted err) }
      | none => some { c with caller := .receiving }
    | _ => none

/-- All interleavings of the caller, the threads that run the coroutine and those that fire its wake
callbacks, from the call of `run_level1`. -/
def level1Machine (V E ι : Type) [Fintype ι] [DecidableEq ι] :
    Machine (Level1Config V E ι) (Level1Act V E ι) where
  init := ⟨.new, [], 0, .receiving, fun _ => .idle⟩
  step := level1Step

/-! ## What a step does -/

section
variable [Fintype ι] [DecidableEq ι] {c c' : Level1Config V E ι}

/-- `Level1Trans c a c'`: the action `a` can lead from `c` to `c'`. -/
inductive Level1Trans (c : Level1Config V E ι) : Level1Act V E ι → Level1Config V E ι → Prop
  | thread {i : ι} {a : CoroAct V E} {s' : CoroTask V E} {m' : CoroPc V E} (ha : a ≠ .cancel)
      (hst : coroStep c.task (c.loc i) a = some (s', m')) :
      Level1Trans c (.thread i a)
        { c with
          task := s'
          inbox := if c.caller.waits then c.inbox ++ (c.loc i).sent c.task else c.inbox
          spent := c.spent + (c.loc i).fires
          loc := Function.update c.loc i m' }
  | forget (hhooks : 0 < c.task.hooks) :
      Level1Trans c .forget { c with task := { c.task with hooks := c.task.hooks - 1 } }
  | collect : Level1Trans c .collect { c with spent := c.spent - 1 }
  | receive {msg : Option V × Option (CoroErr E)} {rest : List (Option V × Option (CoroErr E))}
      (hcaller : c.caller = .receiving) (hinbox : c.inbox = msg :: rest) :
      Level1Trans c .receive { c with inbox := rest, caller := .left (level1Result msg) }
  | disconnected (hcaller : c.caller = .receiving) (hinbox : c.inbox = [])
      (hsender : c.sender = false) :
      Level1Trans c .receive { c with caller := .left .disconnected }
  | timeout (hcaller : c.caller = .receiving) :
      Level1Trans c .timeout { c with caller := .checking }
  | interrupted {err : E} (hcaller : c.caller = .checking) :
      Level1Trans c (.checkSignals (some err)) { c with caller := .left (.interrupted err) }
  | checked (hcaller : c.caller = .checking) :
      Level1Trans c (.checkSignals none) { c with caller := .receiving }

/-- What a step can do. -/
theorem level1Step_trans {a : Level1Act V E ι} (h : level1Step c a = some c') :
    Level1Trans c a c' := by
  cases a with
  | thread i a =>
    cases a with
    | cancel => cases h
    | _ =>
      obtain ⟨⟨s', m'⟩, hp, rfl⟩ := Option.map_eq_some_iff.1 h
      exact .thread (fun ha => by cases ha) hp
  | forget =>
    simp only [level1Step] at h
    split at h
    · next hhooks => cases h; exact .forget hhooks
    · cases h
  | collect =>
    simp only [level1Step] at h
    split at h
    · cases h; exact .collect
    · cases h
  | receive =>
    simp only [level1Step] at h
    split at h
    · next hcaller hinbox => cases h; exact .receive hcaller hinbox
    · next hcaller hinbox =>
      split at h
      · cases h
      · next hsender => cases h; exact .disconnected hcaller hinbox (Bool.eq_false_iff.2 hsender)
    · cases h
  | timeout =>
    simp only [level1Step] at h
    split at h
    · next hcaller => cases h; exact .timeout hcaller
    · cases h
  | checkSignals err =>
    cases err with
    | none =>
      simp only [level1Step] at h
      split at h
      · next hcaller => cases h; exact .checked hcaller
      · cases h
    | some err =>
      simp only [level1Step] at h
      split at h
      · next hcaller => cases h; exact .interrupted hcaller
      · cases h

end

/-! ## What holds of every run -/

section
variable {s s' : CoroTask V E} {m m' : CoroPc V E} {a : CoroAct V E}

/-- A thread sends what it calls the done callback with. -/
theorem CoroTrans.sent (h : CoroTrans s m s' m') (hm : m.ends.isSome → s.calls = []) :
    s'.calls.map doneArgs = s.calls.map doneArgs ++ m.sent s := by
  cases h with
  | notify hcb =>
    rw [hm rfl]
    simp [CoroPc.sent, hcb]
  | notifyNone hcb => simp [CoroPc.sent, hcb]
  | ends hm =>
    rcases hm with rfl | ⟨input, rfl⟩ | ⟨typeName, rfl⟩ <;> simp [CoroPc.sent]
  | _ => simp [CoroPc.sent]

/-- Without the token no thread comes to the cancellation branch. -/
theorem coroStep_calm (h : coroStep s m a = some (s', m')) (ha : a ≠ .cancel)
    (ht : s.token = false) (hm : m ≠ .throwing) :
    s'.token = false ∧ m' ≠ .throwing ∧ m' ≠ .unwound := by
  have hcheck : m = .checkToken → m' ≠ .throwing := by
    rintro rfl rfl
    cases a with
    | go =>
      simp only [coroStep, coroRunStep, ht, Bool.false_eq_true, if_false, Option.some.injEq,
        Prod.mk.injEq] at h
      cases h.2
    | _ => cases h
  have hcancel : m = .idle → m' = .idle → s'.token = s.token := by
    rintro rfl rfl
    cases a with
    | cancel => exact absurd rfl ha
    | run | fire =>
      simp only [coroStep] at h
      split at h <;> cases h
    | _ => cases h
  cases coroStep_trans h with
  | cancelled => exact absurd rfl (hcheck rfl)
  | throwPanicked => exact absurd rfl hm
  | cancel => exact ⟨(hcancel rfl rfl).trans ht, fun h => (by cases h), fun h => (by cases h)⟩
  | _ => exact ⟨ht, fun h => (by cases h), fun h => (by cases h)⟩

end

/-- What is said by how `run_level1` has ended. -/
def Level1Result.Sound (c : Level1Config V E ι) : Level1Result V E → Prop
  | .returned value => ∃ v, value = some v ∧ c.task.ended = some (.ok v)
  | .raised err => c.task.ended = some (.error err)
  | .interrupted _ => True
  | .disconnected => c.task.ended = none ∧ c.task.queued = 0 ∧ c.task.hooks = 0 ∧
      ∀ i, c.loc i = .idle

section
variable [Fintype ι] [DecidableEq ι] {c c' : Level1Config V E ι}

/-- What holds of every run. -/
structure Level1Inv (c : Level1Config V E ι) : Prop where
  coro : CoroInv ⟨c.task, c.loc⟩
  mutex : Mutex c.task.locked CoroPc.holds c.loc
  held : c.task.locked = true → ∃ i, (c.loc i).holds = true
  token : c.task.token = false
  calm : ∀ i, c.loc i ≠ .throwing ∧ c.loc i ≠ .unwound
  /-- What was sent and not received is what the done callback was called with. -/
  inbox : c.caller.waits = true → c.inbox = c.task.calls.map doneArgs
  left : ∀ result, c.caller = .left result → result.Sound c

omit [DecidableEq ι] in
/-- It holds at the start. -/
theorem Level1Inv.init : Level1Inv (⟨.new, [], 0, .receiving, fun _ => .idle⟩ : Level1Config V E ι)
    where
  coro := .init
  mutex := .free fun _ => rfl
  held h := by cases h
  token := rfl
  calm _ := ⟨fun h => (by cases h), fun h => (by cases h)⟩
  inbox _ := rfl
  left _ h := by cases h

omit [DecidableEq ι] in
/-- An object that drops a wake callback leaves what holds of the coroutine. -/
theorem CoroInv.forget {s : CoroTask V E} {f : ι → CoroPc V E} (hI : CoroInv ⟨s, f⟩) :
    CoroInv ⟨{ s with hooks := s.hooks - 1 }, f⟩ := by
  obtain ⟨hone, hconcluded, halive, htold, howed, hcalls, hcallback⟩ := hI
  have hless : total CoroTask.waiting CoroPc.continues ⟨{ s with hooks := s.hooks - 1 }, f⟩ ≤
      total CoroTask.waiting CoroPc.continues ⟨s, f⟩ := by
    simp only [total, CoroTask.waiting]
    omega
  exact ⟨hless.trans hone, fun hended => Nat.le_zero.1 (hconcluded hended ▸ hless), halive, htold,
    howed, hcalls, hcallback⟩

omit [DecidableEq ι] in
/-- A thread that owns neither the task nor a wake callback is in no call. -/
theorem CoroPc.idle_of_owns {m : CoroPc V E} (h : m.owns = false) (hm : m ≠ .unwound) :
    m = .idle := by
  cases m with
  | idle => rfl
  | unwound => exact absurd rfl hm
  | _ => cases h

omit [DecidableEq ι] in
/-- Where the channel is disconnected and nothing was sent, the coroutine will not go on. -/
theorem Level1Inv.disconnected (hI : Level1Inv c) (hwaits : c.caller.waits = true)
    (hinbox : c.inbox = []) (hsender : c.sender = false) :
    Level1Result.disconnected.Sound c := by
  have hcalls : c.task.calls = [] := List.map_eq_nil_iff.1 ((hI.inbox hwaits).symm.trans hinbox)
  have hcallback : c.task.doneCallback = true := by
    by_contra hno
    exact hI.coro.callback (Bool.eq_false_iff.2 hno) hcalls
  have halive : c.alive = false := by
    simpa [Level1Config.sender, hcallback] using (Bool.or_eq_false_iff.1 hsender).1
  obtain ⟨hwaiting, hthreads⟩ := Bool.or_eq_false_iff.1 halive
  rw [decide_eq_false_iff_not] at hwaiting hthreads
  have hidle : ∀ i, c.loc i = .idle := fun i =>
    CoroPc.idle_of_owns (Bool.eq_false_iff.2 fun hi => hthreads ⟨i, hi⟩) (hI.calm i).2
  refine ⟨?_, by omega, by omega, hidle⟩
  by_contra hended
  have htold := hI.coro.told
  have howes : ∑ i, (c.loc i).owes = 0 :=
    Finset.sum_eq_zero fun i _ => by rw [hidle i]; rfl
  rw [if_pos (Option.isSome_iff_ne_none.2 hended), total] at htold
  simp only [CoroTask.told, hcalls, howes, List.length_nil] at htold
  cases htold

/-- What is said by how `run_level1` has ended stays so. -/
theorem Level1Result.Sound.step {result : Level1Result V E} {a : Level1Act V E ι}
    (h : result.Sound c) (hI : Level1Inv c) (hst : Level1Trans c a c') : result.Sound c' := by
  cases hst with
  | @thread i a s' m' ha hst =>
    have ht : CoroTrans c.task (c.loc i) s' m' := coroStep_trans hst
    have hkeep : ∀ {outcome}, c.task.ended = some outcome → s'.ended = some outcome :=
      fun hended => (hI.coro.ended_step (f := c.loc) ht (by rw [hended]; rfl)).trans hended
    cases result with
    | returned value =>
      obtain ⟨v, hv, hended⟩ := h
      exact ⟨v, hv, hkeep hended⟩
    | raised err => exact hkeep h
    | interrupted err => trivial
    | disconnected =>
      obtain ⟨-, hqueued, hhooks, hidle⟩ := h
      rw [hidle i] at hst
      cases a with
      | cancel => exact absurd rfl ha
      | run => simp [coroStep, hqueued] at hst
      | fire => simp [coroStep, hhooks] at hst
      | _ => cases hst
  | forget hhooks =>
    cases result with
    | disconnected =>
      obtain ⟨-, -, hno, -⟩ := h
      omega
    | _ => exact h
  | _ =>
    cases result with
    | _ => exact h

/-- A step keeps it. -/
theorem Level1Inv.step {a : Level1Act V E ι} (hI : Level1Inv c) (hst : Level1Trans c a c') :
    Level1Inv c' := by
  have hsound : ∀ result, c.caller = .left result → result.Sound c' :=
    fun result hresult => (hI.left result hresult).step hI hst
  obtain ⟨hcoro, hmutex, hheld, htoken, hcalm, hinbox, hleft⟩ := id hI
  cases hst with
  | @thread i a s' m' ha hst =>
    have ht : CoroTrans c.task (c.loc i) s' m' := coroStep_trans hst
    have hlock := ht.lock_trans hmutex.locked_of_holds
    obtain ⟨htoken', hm'⟩ := coroStep_calm hst ha htoken (hcalm i).1
    refine ⟨hcoro.step ht, hmutex.step hlock.1 hlock.2.2, held_step hheld hlock.2.1 hlock.2.2,
      htoken', fun j => ?_, fun hwaits => ?_, hsound⟩
    · by_cases hj : j = i
      · subst hj
        simp only [Function.update_self]
        exact hm'
      · simp only [Function.update_of_ne hj]
        exact hcalm j
    · show (if c.caller.waits then c.inbox ++ (c.loc i).sent c.task else c.inbox) = _
      rw [if_pos hwaits, hinbox hwaits]
      exact (ht.sent fun hends => (hcoro.calls_of_owes (i := i) hends).1).symm
  | forget hhooks => exact ⟨hcoro.forget, hmutex, hheld, htoken, hcalm, hinbox, hsound⟩
  | collect => exact ⟨hcoro, hmutex, hheld, htoken, hcalm, hinbox, hsound⟩
  | @receive msg rest hcaller hmsg =>
    refine ⟨hcoro, hmutex, hheld, htoken, hcalm, fun hwaits => (by cases hwaits), ?_⟩
    rintro result ⟨⟩
    rw [hmsg] at hinbox
    have hmem : msg ∈ c.task.calls.map doneArgs := by
      rw [← hinbox (by rw [hcaller]; rfl)]
      exact List.mem_cons_self
    obtain ⟨outcome, hcalled, rfl⟩ := List.mem_map.1 hmem
    have hended := hcoro.calls outcome hcalled
    cases outcome with
    | ok v => exact ⟨v, rfl, hended⟩
    | error err => exact hended
  | disconnected hcaller hempty hsender =>
    refine ⟨hcoro, hmutex, hheld, htoken, hcalm, fun hwaits => (by cases hwaits), ?_⟩
    rintro result ⟨⟩
    exact hI.disconnected (by rw [hcaller]; rfl) hempty hsender
  | timeout hcaller =>
    refine ⟨hcoro, hmutex, hheld, htoken, hcalm, fun _ => hinbox (by rw [hcaller]; rfl), ?_⟩
    rintro result ⟨⟩
  | interrupted hcaller =>
    refine ⟨hcoro, hmutex, hheld, htoken, hcalm, fun hwaits => (by cases hwaits), ?_⟩
    rintro result ⟨⟩
    trivial
  | checked hcaller =>
    refine ⟨hcoro, hmutex, hheld, htoken, hcalm, fun _ => hinbox (by rw [hcaller]; rfl), ?_⟩
    rintro result ⟨⟩

/-- It holds in every state reached. -/
theorem reachable_level1Inv (h : (level1Machine V E ι).Reachable anyStep c) : Level1Inv c :=
  h.invariant .init fun _ _ _ hI _ hst => hI.step (level1Step_trans hst)

end

/-- What `run_level1` has returned or raised is the outcome of the coroutine, or the error of a
signal handler; and where it has reported a disconnected channel the coroutine has not ended, and
nothing is left that could go on with it. -/
theorem level1_returns [Fintype ι] [DecidableEq ι] {c : Level1Config V E ι}
    (h : (level1Machine V E ι).Reachable anyStep c) {result : Level1Result V E}
    (hresult : c.caller = .left result) : result.Sound c :=
  (reachable_level1Inv h).left result hresult

/-- The coroutine returns at its first step, after a timeout of the caller. -/
def returnRun : List (Level1Act ℕ Unit Unit) :=
  [.thread () .run, .timeout, .checkSignals none] ++ List.replicate 4 (.thread () .go) ++
    [.thread () (.stepped (.returned 7)), .thread () .go, .thread () .go, .receive]

/-- `run_level1` returns its value. -/
theorem level1_returns_value :
    ∃ c, (level1Machine ℕ Unit Unit).run (level1Machine ℕ Unit Unit).init returnRun = some c ∧
      c.caller = .left (.returned (some 7)) ∧
      Level1Result.Sound c (.returned (some 7)) := by
  have hrun : (level1Machine ℕ Unit Unit).run (level1Machine ℕ Unit Unit).init returnRun =
      some _ := rfl
  exact ⟨_, hrun, rfl, level1_returns (reach_of_run _ hrun) rfl⟩

/-! ## At rest -/

/-- A step that the caller or a thread takes of its own: no timeout of the caller, no wake callback
that fires, and none that is dropped. -/
def Level1Act.own : Level1Act V E ι → Bool
  | .thread _ a => a.own
  | .receive | .checkSignals _ => true
  | .forget | .collect | .timeout => false

/-- Steps that are left to do. -/
def level1Own (_ : Level1Config V E ι) (a : Level1Act V E ι) : Prop := a.own = true

/-- Level 1 at rest: no thread is in a call and no handle is queued; and `run_level1` has ended, or
it waits while the coroutine has not ended, and waits for an object that has its wake callback, or
is kept by wake callbacks that were fired. -/
structure Level1Rests (c : Level1Config V E ι) : Prop where
  idle : ∀ i, c.loc i = .idle
  queued : c.task.queued = 0
  caller : (∃ result, c.caller = .left result) ∨
    c.caller = .receiving ∧ c.task.ended = none ∧
      (c.task.hooks = 1 ∨ c.task.hooks = 0 ∧ 0 < c.spent)

/-- Wherever nothing is left to do, Level 1 is at rest. -/
theorem level1_rests [Fintype ι] [DecidableEq ι] [Nonempty ι] {c : Level1Config V E ι}
    (h : (level1Machine V E ι).Reachable anyStep c)
    (hstuck : (level1Machine V E ι).Stuck level1Own c) : Level1Rests c := by
  have hI := reachable_level1Inv h
  have hstill : CoroStill (⟨c.task, c.loc⟩ : CoroConfig V E ι) := by
    intro i a hown
    have hno := hstuck (.thread i a) hown
    cases a with
    | fire | cancel => cases hown
    | _ => exact Option.map_eq_none_iff.1 hno
  have hidle : ∀ i, c.loc i = .idle := fun i =>
    (idle_of_still hI.held hstill i).resolve_right (hI.calm i).2
  have hqueued : c.task.queued = 0 := by
    obtain ⟨i⟩ := ‹Nonempty ι›
    by_contra hq
    have hrun := hstill i .run rfl
    simp [hidle i, coroStep, Nat.pos_of_ne_zero hq] at hrun
  refine ⟨hidle, hqueued, ?_⟩
  have hreceive : level1Step c .receive = none := hstuck .receive rfl
  cases hcaller : c.caller with
  | left result => exact .inl ⟨result, rfl⟩
  | checking =>
    have hcheck : level1Step c (.checkSignals none) = none := hstuck (.checkSignals none) rfl
    simp [level1Step, hcaller] at hcheck
  | receiving =>
    right
    have hwaits : c.caller.waits = true := by rw [hcaller]; rfl
    have hinbox : c.inbox = [] := by
      cases hmsg : c.inbox with
      | nil => rfl
      | cons msg rest => simp [level1Step, hcaller, hmsg] at hreceive
    have hsender : c.sender = true := by
      by_contra hno
      simp [level1Step, hcaller, hinbox, hno] at hreceive
    have hcalls : c.task.calls = [] := List.map_eq_nil_iff.1 ((hI.inbox hwaits).symm.trans hinbox)
    have hkept : (0 < c.task.hooks ∨ 0 < c.spent) ∧ c.task.doneCallback = true := by
      simpa [Level1Config.sender, Level1Config.alive, hidle, CoroPc.calls, CoroPc.owns,
        hqueued] using hsender
    have hzero : ∀ g : CoroPc V E → ℕ, g .idle = 0 → ∑ i, g (c.loc i) = 0 :=
      fun g hg => Finset.sum_eq_zero fun i _ => by rw [hidle i, hg]
    have hended : c.task.ended = none := by
      by_contra hended
      have htold := hI.coro.told
      rw [if_pos (Option.isSome_iff_ne_none.2 hended), total] at htold
      simp only [CoroTask.told, hcalls, hzero CoroPc.owes rfl, List.length_nil] at htold
      cases htold
    have hone := hI.coro.one
    simp only [total, CoroTask.waiting, hzero CoroPc.continues rfl, hqueued] at hone
    exact ⟨rfl, hended, by omega⟩

/-- The coroutine yields an object, which drops the wake callback. -/
def forgottenRun : List (Level1Act Unit Unit Unit) :=
  .thread () .run :: List.replicate 4 (.thread () .go) ++
    [.thread () (.stepped (.yieldedHook "Future")), .thread () .accept, .thread () .go,
      .thread () .go, .forget, .receive]

/-- `run_level1` reports a disconnected channel, and nothing is left to do. -/
theorem level1_rests_forgotten :
    ∃ c, (level1Machine Unit Unit Unit).run (level1Machine Unit Unit Unit).init forgottenRun =
        some c ∧ c.caller = .left .disconnected ∧ Level1Rests c := by
  have hrun : (level1Machine Unit Unit Unit).run (level1Machine Unit Unit Unit).init
      forgottenRun = some _ := rfl
  refine ⟨_, hrun, rfl, level1_rests (reach_of_run _ hrun) ?_⟩
  rintro (⟨i, a⟩ | _ | _ | _ | _ | err) hown
  · cases a with
    | fire | cancel => cases hown
    | _ => rfl
  · cases hown
  · cases hown
  · rfl
  · cases hown
  · rfl

end Hypertile
