import Hypertile.Machine.Threads

/-!
# The asyncio executor

The model of `HypertileAsyncioExecutor` in `asyncio_policy.py`: any number of threads that submit
calls, cancel futures and shut the executor down, and of pool threads that run the submitted
functions and the completion callbacks `_on_done`. Each read or write of `_shutdown`, `_pending` and
of the state of a future is one step.

A `concurrent.futures.Future` takes a cancel only while it is pending, a result likewise, and calls
its done callback after either; nobody marks it as running or notifies a cancel, so `wait` counts a
future as done only once it is finished. That `_on_done` is called once, after the function has
ended and the callback was registered, is `callbacks_fire_once_iff`; here it is one action. Where
the native extension is missing, a plain thread runs the function and sets the result; it takes the
same steps.
-/

namespace Hypertile

/-- The state of a `concurrent.futures.Future`. -/
inductive ConcurrentState (R : Type) where
  | pending
  | cancelled
  | finished (outcome : R)

/-- Where the function of a submission stands in the pool. -/
inductive FnState (R : Type) where
  | unspawned
  | queued
  | running
  | ended (outcome : R)

/-- One call of `submit`: its future and its task. -/
structure Submission (R : Type) where
  state : ConcurrentState R
  /-- `_pending` has had the future. -/
  added : Bool
  /-- `_cleanup` is registered with the future. -/
  cleanup : Bool
  fn : FnState R
  /-- `_on_done` is registered with the task. -/
  onDone : Bool
  called : Bool

/-- What all threads share: the executor and its submissions, named by their futures. Some fields
record what has happened: the futures that `submit` has returned, whether a `shutdown` that waits
has returned, the calls of `set_result` and `set_exception` that took effect, the functions that
were started for a cancelled future, and the calls of `_on_done` that raised. -/
structure ExecutorShared (κ R : Type) where
  shutdown : Bool
  pending : List κ
  submission : κ → Option (Submission R)
  returned : List κ
  waited : Bool
  resolved : List κ
  startedDead : List κ
  raised : List κ

/-- Where a thread goes on after `_cleanup`. -/
inductive AfterCleanup (κ : Type) where
  | idle
  | submitSpawn (fut : κ)
  | cancelling (rest : List κ) (wait : Bool)

/-- Where a thread stands. -/
inductive ExecutorPc (κ R : Type) where
  | idle
  /-- `submit`: about to read `_shutdown`, to add to `_pending`, to register `_cleanup`, to spawn the
  task, to register `_on_done`, and to return. -/
  | submitCheck (fut : κ)
  | submitAdd (fut : κ)
  | submitCleanup (fut : κ)
  | submitSpawn (fut : κ)
  | submitRegister (fut : κ)
  | submitReturn (fut : κ)
  /-- In `_cleanup`. -/
  | discard (fut : κ) (next : AfterCleanup κ)
  /-- `shutdown`: about to set the flag, to list the futures that it cancels, and cancelling them. -/
  | setFlag (wait cancelFutures : Bool)
  | listCancel (wait : Bool)
  | cancelling (rest : List κ) (wait : Bool)
  /-- About to look whether `_pending` is empty, to list the futures that it waits for, and waiting
  for them. -/
  | look
  | listWait
  | waiting (rest : List κ)
  /-- `_on_done`, about to set the outcome of the task. -/
  | resolve (fut : κ) (outcome : R)

/-- What is chosen for a thread: its next step, a call that it makes, or what it does in the pool.
-/
inductive ExecutorAct (κ R : Type) where
  | go
  | submit (fut : κ)
  | cancel (fut : κ)
  | shutdown (wait cancelFutures : Bool)
  /-- The native extension is unavailable. -/
  | fallback
  /-- The next future of the list that is cancelled; the order of a set is not known. -/
  | pick (fut : κ)
  | start (fut : κ)
  | finish (fut : κ) (outcome : R)
  | callOnDone (fut : κ)

/-- Where a thread goes on after `_cleanup`. -/
def AfterCleanup.pc {κ R : Type} : AfterCleanup κ → ExecutorPc κ R
  | .idle => .idle
  | .submitSpawn fut => .submitSpawn fut
  | .cancelling rest wait => .cancelling rest wait

namespace Submission

variable {R : Type}

/-- A submission whose future was just created. -/
def new : Submission R where
  state := .pending
  added := false
  cleanup := false
  fn := .unspawned
  onDone := false
  called := false

end Submission

namespace ExecutorShared

variable {κ R : Type} [DecidableEq κ]

/-- Sets a submission. -/
def set (s : ExecutorShared κ R) (fut : κ) (x : Submission R) : ExecutorShared κ R :=
  { s with submission := Function.update s.submission fut (some x) }

/-- The submission that is set. -/
theorem set_submission_self (s : ExecutorShared κ R) (fut : κ) (x : Submission R) :
    (s.set fut x).submission fut = some x := Function.update_self ..

/-- The other submissions. -/
theorem set_submission_of_ne (s : ExecutorShared κ R) {fut cb : κ} (h : cb ≠ fut)
    (x : Submission R) : (s.set fut x).submission cb = s.submission cb := Function.update_of_ne h ..

/-- Where a thread goes on after it has given a future a final state. -/
def afterState (fut : κ) (x : Submission R) (next : AfterCleanup κ) : ExecutorPc κ R :=
  if x.cleanup then .discard fut next else next.pc

/-- `Future.cancel`. -/
def cancelFuture (s : ExecutorShared κ R) (fut : κ) (next : AfterCleanup κ) :
    Option (ExecutorShared κ R × ExecutorPc κ R) :=
  (s.submission fut).map fun x =>
    match x.state with
    | .pending => (s.set fut { x with state := .cancelled }, afterState fut x next)
    | _ => (s, next.pc)

/-- `fut.set_result` or `fut.set_exception` in `_on_done`; what is raised by the first is caught and
given to the second, which raises as well. -/
def setOutcome (s : ExecutorShared κ R) (fut : κ) (outcome : R) :
    Option (ExecutorShared κ R × ExecutorPc κ R) :=
  (s.submission fut).map fun x =>
    match x.state with
    | .pending =>
      ({ s.set fut { x with state := .finished outcome } with resolved := fut :: s.resolved },
        afterState fut x .idle)
    | _ => ({ s with raised := fut :: s.raised }, .idle)

end ExecutorShared

section
variable {κ R : Type} [DecidableEq κ]

open ExecutorShared

/-- `submit`. -/
def submitStep (s : ExecutorShared κ R) :
    ExecutorPc κ R → ExecutorAct κ R → Option (ExecutorShared κ R × ExecutorPc κ R)
  | .submitCheck fut, .go =>
    if s.shutdown then some (s, .idle)
    else
      match s.submission fut with
      | none => some (s.set fut .new, .submitAdd fut)
      | some _ => none
  | .submitAdd fut, .go =>
    (s.submission fut).map fun x =>
      ({ s.set fut { x with added := true } with pending := fut :: s.pending },
        .submitCleanup fut)
  | .submitCleanup fut, .go =>
    (s.submission fut).map fun x =>
      match x.state with
      | .pending => (s.set fut { x with cleanup := true }, .submitSpawn fut)
      | _ => (s, .discard fut (.submitSpawn fut))
  | .submitSpawn fut, .go =>
    (s.submission fut).map fun x => (s.set fut { x with fn := .queued }, .submitRegister fut)
  | .submitSpawn fut, .fallback =>
    (s.submission fut).map fun x =>
      (s.set fut { x with fn := .queued, onDone := true }, .submitReturn fut)
  | .submitRegister fut, .go =>
    (s.submission fut).map fun x => (s.set fut { x with onDone := true }, .submitReturn fut)
  | .submitReturn fut, .go => some ({ s with returned := fut :: s.returned }, .idle)
  | _, _ => none

/-- Where `shutdown` goes on after the cancelling. -/
def afterCancelling (wait : Bool) : ExecutorPc κ R := if wait then .look else .idle

/-- `shutdown`. -/
def shutdownStep (s : ExecutorShared κ R) :
    ExecutorPc κ R → Option (ExecutorShared κ R × ExecutorPc κ R)
  | .setFlag wait cancelFutures =>
    some ({ s with shutdown := true },
      if cancelFutures then .listCancel wait else afterCancelling wait)
  | .listCancel wait => some (s, .cancelling s.pending wait)
  | .cancelling [] wait => some (s, afterCancelling wait)
  | .look => some (if s.pending.isEmpty then ({ s with waited := true }, .idle) else (s, .listWait))
  | .listWait => some (s, .waiting s.pending)
  | .waiting (fut :: rest) =>
    (s.submission fut).bind fun x =>
      match x.state with
      | .finished _ => some (s, .waiting rest)
      | _ => none
  | .waiting [] => some ({ s with waited := true }, .idle)
  | _ => none

/-- What a pool thread does with a submission. -/
def poolAct (s : ExecutorShared κ R) :
    ExecutorAct κ R → Option (ExecutorShared κ R × ExecutorPc κ R)
  | .start fut =>
    (s.submission fut).bind fun x =>
      match x.fn with
      | .queued =>
        some ({ s.set fut { x with fn := .running } with
          startedDead := match x.state with
            | .cancelled => fut :: s.startedDead
            | _ => s.startedDead }, .idle)
      | _ => none
  | .finish fut outcome =>
    (s.submission fut).bind fun x =>
      match x.fn with
      | .running => some (s.set fut { x with fn := .ended outcome }, .idle)
      | _ => none
  | .callOnDone fut =>
    (s.submission fut).bind fun x =>
      match x.fn, x.onDone, x.called with
      | .ended outcome, true, false =>
        some (s.set fut { x with called := true }, .resolve fut outcome)
      | _, _, _ => none
  | _ => none

/-- A step of a thread. -/
def executorStep (s : ExecutorShared κ R) :
    ExecutorPc κ R → ExecutorAct κ R → Option (ExecutorShared κ R × ExecutorPc κ R)
  | .idle, .submit fut => some (s, .submitCheck fut)
  | .idle, .cancel fut => s.cancelFuture fut .idle
  | .idle, .shutdown wait cancelFutures => some (s, .setFlag wait cancelFutures)
  | .idle, a => poolAct s a
  | .discard fut next, .go => some ({ s with pending := s.pending.filter (· ≠ fut) }, next.pc)
  | .resolve fut outcome, .go => s.setOutcome fut outcome
  | .setFlag wait cancelFutures, .go => shutdownStep s (.setFlag wait cancelFutures)
  | .listCancel wait, .go => shutdownStep s (.listCancel wait)
  | .cancelling rest wait, .pick fut =>
    if fut ∈ rest then s.cancelFuture fut (.cancelling (rest.erase fut) wait) else none
  | .cancelling rest wait, .go => shutdownStep s (.cancelling rest wait)
  | .look, .go => shutdownStep s .look
  | .listWait, .go => shutdownStep s .listWait
  | .waiting rest, .go => shutdownStep s (.waiting rest)
  | pc, a => submitStep s pc a

/-- An executor without submissions. -/
def ExecutorShared.new : ExecutorShared κ R where
  shutdown := false
  pending := []
  submission _ := none
  returned := []
  waited := false
  resolved := []
  startedDead := []
  raised := []

/-- The configurations of an executor. -/
abbrev ExecutorConfig (κ R ι : Type) := Machine.Config (ExecutorShared κ R) (ExecutorPc κ R) ι

/-- An executor without submissions, and the threads `ι`. -/
def executorStart (κ R ι : Type) [DecidableEq κ] : ExecutorConfig κ R ι := ⟨.new, fun _ => .idle⟩

/-- All interleavings of the threads `ι`. -/
def executorMachine (κ R ι : Type) [DecidableEq κ] [DecidableEq ι] :
    Machine (ExecutorConfig κ R ι) (ι × ExecutorAct κ R) :=
  .threads (fun _ => executorStep) (executorStart κ R ι)

end

/-! ## The steps -/

section
variable {κ R : Type} [DecidableEq κ]

open ExecutorShared

/-- `ExecutorTrans s m a s' m'`: a thread at `m` can take the step `a` from `s`, to `s'` and `m'`.
-/
inductive ExecutorTrans (s : ExecutorShared κ R) :
    ExecutorPc κ R → ExecutorAct κ R → ExecutorShared κ R → ExecutorPc κ R → Prop
  | submit {fut : κ} : ExecutorTrans s .idle (.submit fut) s (.submitCheck fut)
  | shutdown {wait cancelFutures : Bool} :
      ExecutorTrans s .idle (.shutdown wait cancelFutures) s (.setFlag wait cancelFutures)
  | refuse {fut : κ} (hflag : s.shutdown = true) : ExecutorTrans s (.submitCheck fut) .go s .idle
  | create {fut : κ} (hflag : s.shutdown = false) (hnew : s.submission fut = none) :
      ExecutorTrans s (.submitCheck fut) .go (s.set fut .new) (.submitAdd fut)
  | add {fut : κ} {x : Submission R} (hx : s.submission fut = some x) :
      ExecutorTrans s (.submitAdd fut) .go
        { s.set fut { x with added := true } with pending := fut :: s.pending }
        (.submitCleanup fut)
  | cleanup {fut : κ} {x : Submission R} (hx : s.submission fut = some x)
      (hst : x.state = .pending) :
      ExecutorTrans s (.submitCleanup fut) .go (s.set fut { x with cleanup := true })
        (.submitSpawn fut)
  | cleanupDead {fut : κ} {x : Submission R} (hx : s.submission fut = some x)
      (hst : x.state ≠ .pending) :
      ExecutorTrans s (.submitCleanup fut) .go s (.discard fut (.submitSpawn fut))
  | discard {fut : κ} {next : AfterCleanup κ} :
      ExecutorTrans s (.discard fut next) .go { s with pending := s.pending.filter (· ≠ fut) }
        next.pc
  | spawn {fut : κ} {x : Submission R} (hx : s.submission fut = some x) :
      ExecutorTrans s (.submitSpawn fut) .go (s.set fut { x with fn := .queued })
        (.submitRegister fut)
  | fallback {fut : κ} {x : Submission R} (hx : s.submission fut = some x) :
      ExecutorTrans s (.submitSpawn fut) .fallback
        (s.set fut { x with fn := .queued, onDone := true }) (.submitReturn fut)
  | register {fut : κ} {x : Submission R} (hx : s.submission fut = some x) :
      ExecutorTrans s (.submitRegister fut) .go (s.set fut { x with onDone := true })
        (.submitReturn fut)
  | ret {fut : κ} :
      ExecutorTrans s (.submitReturn fut) .go { s with returned := fut :: s.returned } .idle
  /-- A cancel, by a caller or by `shutdown`, that takes effect. -/
  | cancel {fut : κ} {x : Submission R} {m : ExecutorPc κ R} {next : AfterCleanup κ}
      {a : ExecutorAct κ R}
      (hm : m = .idle ∧ a = .cancel fut ∧ next = .idle ∨
        ∃ rest wait, m = .cancelling rest wait ∧ a = .pick fut ∧
          next = .cancelling (rest.erase fut) wait)
      (hx : s.submission fut = some x) (hst : x.state = .pending) :
      ExecutorTrans s m a (s.set fut { x with state := .cancelled }) (afterState fut x next)
  | cancelNot {fut : κ} {x : Submission R} {m : ExecutorPc κ R} {next : AfterCleanup κ}
      {a : ExecutorAct κ R}
      (hm : m = .idle ∧ a = .cancel fut ∧ next = .idle ∨
        ∃ rest wait, m = .cancelling rest wait ∧ a = .pick fut ∧
          next = .cancelling (rest.erase fut) wait)
      (hx : s.submission fut = some x) (hst : x.state ≠ .pending) : ExecutorTrans s m a s next.pc
  | setFlag {wait cancelFutures : Bool} :
      ExecutorTrans s (.setFlag wait cancelFutures) .go { s with shutdown := true }
        (if cancelFutures then .listCancel wait else afterCancelling wait)
  | listCancel {wait : Bool} :
      ExecutorTrans s (.listCancel wait) .go s (.cancelling s.pending wait)
  | cancelled {wait : Bool} :
      ExecutorTrans s (.cancelling [] wait) .go s (afterCancelling wait)
  | lookEmpty (hempty : s.pending = []) :
      ExecutorTrans s .look .go { s with waited := true } .idle
  | look (hsome : s.pending ≠ []) : ExecutorTrans s .look .go s .listWait
  | listWait : ExecutorTrans s .listWait .go s (.waiting s.pending)
  | finished {fut : κ} {rest : List κ} {x : Submission R} {outcome : R}
      (hx : s.submission fut = some x) (hst : x.state = .finished outcome) :
      ExecutorTrans s (.waiting (fut :: rest)) .go s (.waiting rest)
  | waited : ExecutorTrans s (.waiting []) .go { s with waited := true } .idle
  | start {fut : κ} {x : Submission R} (hx : s.submission fut = some x) (hfn : x.fn = .queued)
      (hst : x.state ≠ .cancelled) :
      ExecutorTrans s .idle (.start fut) (s.set fut { x with fn := .running }) .idle
  | startDead {fut : κ} {x : Submission R} (hx : s.submission fut = some x) (hfn : x.fn = .queued)
      (hst : x.state = .cancelled) :
      ExecutorTrans s .idle (.start fut)
        { s.set fut { x with fn := .running } with startedDead := fut :: s.startedDead } .idle
  | finish {fut : κ} {x : Submission R} {outcome : R} (hx : s.submission fut = some x)
      (hfn : x.fn = .running) :
      ExecutorTrans s .idle (.finish fut outcome) (s.set fut { x with fn := .ended outcome }) .idle
  | callOnDone {fut : κ} {x : Submission R} {outcome : R} (hx : s.submission fut = some x)
      (hfn : x.fn = .ended outcome) (hcalled : x.called = false) :
      ExecutorTrans s .idle (.callOnDone fut) (s.set fut { x with called := true })
        (.resolve fut outcome)
  | resolve {fut : κ} {outcome : R} {x : Submission R} (hx : s.submission fut = some x)
      (hst : x.state = .pending) :
      ExecutorTrans s (.resolve fut outcome) .go
        { s.set fut { x with state := .finished outcome } with resolved := fut :: s.resolved }
        (afterState fut x .idle)
  | raise {fut : κ} {outcome : R} {x : Submission R} (hx : s.submission fut = some x)
      (hst : x.state ≠ .pending) :
      ExecutorTrans s (.resolve fut outcome) .go { s with raised := fut :: s.raised } .idle

variable {s s' : ExecutorShared κ R} {m m' : ExecutorPc κ R} {a : ExecutorAct κ R}

/-- What a cancel can do. -/
theorem cancelFuture_trans {fut : κ} {next : AfterCleanup κ}
    (hm : m = .idle ∧ a = .cancel fut ∧ next = .idle ∨
      ∃ rest wait, m = .cancelling rest wait ∧ a = .pick fut ∧
        next = .cancelling (rest.erase fut) wait)
    (h : s.cancelFuture fut next = some (s', m')) : ExecutorTrans s m a s' m' := by
  obtain ⟨x, hx, h⟩ := Option.map_eq_some_iff.1 h
  split at h
  · next hst => cases h; exact .cancel hm hx hst
  · next hst => cases h; exact .cancelNot hm hx hst

/-- What a step of `submit` can do. -/
theorem submitStep_trans (h : submitStep s m a = some (s', m')) : ExecutorTrans s m a s' m' := by
  unfold submitStep at h
  split at h
  · split at h
    · next hflag => cases h; exact .refuse hflag
    · next hflag =>
      split at h
      · next hnew => cases h; exact .create (Bool.eq_false_iff.2 hflag) hnew
      · cases h
  · obtain ⟨x, hx, h⟩ := Option.map_eq_some_iff.1 h
    cases h
    exact .add hx
  · obtain ⟨x, hx, h⟩ := Option.map_eq_some_iff.1 h
    split at h
    · next hst => cases h; exact .cleanup hx hst
    · next hst => cases h; exact .cleanupDead hx hst
  · obtain ⟨x, hx, h⟩ := Option.map_eq_some_iff.1 h
    cases h
    exact .spawn hx
  · obtain ⟨x, hx, h⟩ := Option.map_eq_some_iff.1 h
    cases h
    exact .fallback hx
  · obtain ⟨x, hx, h⟩ := Option.map_eq_some_iff.1 h
    cases h
    exact .register hx
  · cases h; exact .ret
  · cases h

/-- What a step of `shutdown` can do. -/
theorem shutdownStep_trans (h : shutdownStep s m = some (s', m')) :
    ExecutorTrans s m .go s' m' := by
  unfold shutdownStep at h
  split at h
  · cases h; exact .setFlag
  · cases h; exact .listCancel
  · cases h; exact .cancelled
  · split at h
    · next hempty => cases h; exact .lookEmpty (List.isEmpty_iff.1 hempty)
    · next hsome => cases h; exact .look fun hempty => hsome (List.isEmpty_iff.2 hempty)
  · cases h; exact .listWait
  · obtain ⟨x, hx, h⟩ := Option.bind_eq_some_iff.1 h
    split at h
    · next hst => cases h; exact .finished hx hst
    · cases h
  · cases h; exact .waited
  · cases h

/-- What a pool thread can do. -/
theorem poolAct_trans (h : poolAct s a = some (s', m')) : ExecutorTrans s .idle a s' m' := by
  unfold poolAct at h
  split at h
  · obtain ⟨x, hx, h⟩ := Option.bind_eq_some_iff.1 h
    split at h
    · next hfn =>
      split at h
      · next hst => cases h; exact .startDead hx hfn hst
      · next hst => cases h; exact .start hx hfn hst
    · cases h
  · obtain ⟨x, hx, h⟩ := Option.bind_eq_some_iff.1 h
    split at h
    · next hfn => cases h; exact .finish hx hfn
    · cases h
  · obtain ⟨x, hx, h⟩ := Option.bind_eq_some_iff.1 h
    split at h
    · next hfn hon hcalled => cases h; exact .callOnDone hx hfn hcalled
    · cases h
  · cases h

/-- What a step can do. -/
theorem executorStep_trans (h : executorStep s m a = some (s', m')) :
    ExecutorTrans s m a s' m' := by
  unfold executorStep at h
  split at h
  · cases h; exact .submit
  · exact cancelFuture_trans (.inl ⟨rfl, rfl, rfl⟩) h
  · cases h; exact .shutdown
  · exact poolAct_trans h
  · cases h; exact .discard
  · obtain ⟨x, hx, h⟩ := Option.map_eq_some_iff.1 h
    split at h
    · next hst => cases h; exact .resolve hx hst
    · next hst => cases h; exact .raise hx hst
  · exact shutdownStep_trans h
  · exact shutdownStep_trans h
  · split at h
    · exact cancelFuture_trans (.inr ⟨_, _, rfl, rfl, rfl⟩) h
    · cases h
  · exact shutdownStep_trans h
  · exact shutdownStep_trans h
  · exact shutdownStep_trans h
  · exact shutdownStep_trans h
  · exact submitStep_trans h

end

end Hypertile
