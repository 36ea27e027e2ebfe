import Hypertile.Global.Workers
import Hypertile.Machine.Threads

/-!
# The global runtime

The model of `GLOBAL_RUNTIME` in `runtime.rs`: any number of threads that call
`configure_global_runtime`, `init_global_runtime` and `global_runtime`. The `OnceLock` is
linearizable: `get` sees a value that was published; `set` publishes its value if there is none,
waits while an initializer runs, and gives the value back if there is one; `get_or_init` runs its
initializer if there is neither a value nor one running, and waits while one runs.

`Runtime::new` starts the workers of a candidate. A candidate that was not published is dropped at
the end of its call: `shutdown` stops it and joins its workers one after the other. A worker exits
some time after its runtime was stopped. The calling thread is no worker of its own candidate, which
has no tasks.
-/

namespace Hypertile

/-- A `Runtime`: its size, whether its core runs, the join handles of its worker threads, and which
of them have exited. -/
structure PoolRuntime where
  numWorkers : ℕ
  running : Bool
  workerThreads : List ℕ
  exited : List ℕ

/-- `start_workers`: the threads that it starts. -/
def startWorkers (nWorkers : ℕ) : List ℕ := List.range nWorkers

/-- `Runtime::new`. -/
def PoolRuntime.new (nWorkers : ℕ) : PoolRuntime where
  numWorkers := (startWorkers nWorkers).length
  running := true
  workerThreads := startWorkers nWorkers
  exited := []

/-- The runtime is stopped, and all its workers have exited. -/
def PoolRuntime.ShutDown (rt : PoolRuntime) : Prop :=
  rt.running = false ∧ ∀ k < rt.numWorkers, k ∈ rt.exited

/-- A `OnceLock`; `κ` names the runtimes. -/
inductive OnceState (κ : Type) where
  | empty
  | initializing
  | published (r : κ)

/-- A call of `configure_global_runtime`, by itself or by `init_global_runtime`. -/
structure ConfigureCall where
  requested : ℕ
  lenient : Bool

/-- What is recorded of a call of `configure_global_runtime` that returns: its candidate, if it has
made one, and its result. -/
structure ConfigureReturn (κ : Type) where
  requested : ℕ
  candidate : Option κ
  result : Except ℕ κ

/-- What all threads share. Some fields record what has happened: the runtimes that were published,
the calls of `configure_global_runtime` that have returned, the runtimes that `init_global_runtime`
and `global_runtime` have returned, and whether an `expect` has panicked. -/
structure GlobalShared (κ : Type) where
  once : OnceState κ
  runtime : κ → Option PoolRuntime
  published : List κ
  configured : List (ConfigureReturn κ)
  returned : List κ
  panicked : Bool

/-- Where a thread stands. -/
inductive GlobalPc (κ : Type) where
  | idle
  /-- `configure_global_runtime`: about to look for a runtime, to make a candidate, to publish it,
  and to look for the published one. -/
  | get (call : ConfigureCall)
  | create (call : ConfigureCall)
  | set (call : ConfigureCall) (candidate : κ)
  | getWon (call : ConfigureCall) (candidate : κ)
  | getLost (call : ConfigureCall) (candidate : κ)
  /-- The candidate is dropped: about to stop it, and joining its workers. -/
  | drop (call : ConfigureCall) (candidate : κ) (workers : ℕ)
  | join (call : ConfigureCall) (candidate : κ) (toJoin : List ℕ) (workers : ℕ)
  | ret (call : ConfigureCall) (candidate : Option κ) (result : Except ℕ κ)
  /-- `init_global_runtime` after an error. -/
  | getStarted
  /-- `global_runtime`: about to enter `get_or_init`, in its initializer, and about to publish. -/
  | getOrInit
  | runInit
  | publish (r : κ)

/-- What is chosen for a thread: its next step, the name of the runtime that it makes, or the call
that it makes; and that a worker exits, which is not the thread's doing. -/
inductive GlobalAct (κ : Type) where
  | go
  | create (r : κ)
  | configure (requested : ℕ)
  | init (numWorkers : ℕ)
  | global
  | exit (r : κ) (k : ℕ)

section
variable {κ : Type} [DecidableEq κ]

namespace GlobalShared

/-- No runtime yet. -/
def new : GlobalShared κ where
  once := .empty
  runtime _ := none
  published := []
  configured := []
  returned := []
  panicked := false

/-- Sets the state of a runtime. -/
def setRuntime (s : GlobalShared κ) (r : κ) (rt : PoolRuntime) : GlobalShared κ :=
  { s with runtime := Function.update s.runtime r (some rt) }

/-- Publishes a runtime. -/
def publish (s : GlobalShared κ) (r : κ) : GlobalShared κ :=
  { s with once := .published r, published := r :: s.published }

/-- `GLOBAL_RUNTIME.get()`. -/
def get (s : GlobalShared κ) : Option κ :=
  match s.once with
  | .published r => some r
  | _ => none

/-- An `expect` panics. -/
def panic (s : GlobalShared κ) : GlobalShared κ := { s with panicked := true }

/-- A worker of a stopped runtime exits. -/
def exit (s : GlobalShared κ) (r : κ) (k : ℕ) : Option (GlobalShared κ) :=
  (s.runtime r).bind fun rt =>
    if rt.running then none else some (s.setRuntime r { rt with exited := k :: rt.exited })

end GlobalShared

/-- A step of a thread. -/
def globalStep (env : Option (List Char)) (parallelism : Option ℕ) (s : GlobalShared κ) :
    GlobalPc κ → GlobalAct κ → Option (GlobalShared κ × GlobalPc κ)
  | m, .exit r k => (s.exit r k).map fun s' => (s', m)
  | .idle, .configure requested => some (s, .get ⟨requested, false⟩)
  | .idle, .init numWorkers => some (s, .get ⟨numWorkers, true⟩)
  | .idle, .global => some (s, .getOrInit)
  | .get call, .go =>
    match s.get with
    | some existing =>
      (s.runtime existing).map fun rt => (s, .ret call none (.error rt.numWorkers))
    | none => some (s, .create call)
  | .create call, .create r =>
    match s.runtime r with
    | none =>
      some (s.setRuntime r (.new (resolveWorkerCount env parallelism call.requested)), .set call r)
    | some _ => none
  | .set call candidate, .go =>
    match s.once with
    | .empty => some (s.publish candidate, .getWon call candidate)
    | .initializing => none
    | .published _ => some (s, .getLost call candidate)
  | .getWon call candidate, .go =>
    match s.get with
    | some r => some (s, .ret call (some candidate) (.ok r))
    | none => some (s.panic, .idle)
  | .getLost call candidate, .go =>
    match s.get with
    | some r => (s.runtime r).map fun rt => (s, .drop call candidate rt.numWorkers)
    | none => some (s.panic, .idle)
  | .drop call candidate workers, .go =>
    (s.runtime candidate).map fun rt =>
      (s.setRuntime candidate { rt with running := false, workerThreads := [] },
        .join call candidate rt.workerThreads workers)
  | .join call candidate [] workers, .go =>
    some (s, .ret call (some candidate) (.error workers))
  | .join call candidate (k :: toJoin) workers, .go =>
    (s.runtime candidate).bind fun rt =>
      if k ∈ rt.exited then some (s, .join call candidate toJoin workers) else none
  | .ret call candidate result, .go =>
    let s := { s with configured := ⟨call.requested, candidate, result⟩ :: s.configured }
    if call.lenient then
      match result with
      | .ok r => some ({ s with returned := r :: s.returned }, .idle)
      | .error _ => some (s, .getStarted)
    else some (s, .idle)
  | .getStarted, .go =>
    match s.get with
    | some r => some ({ s with returned := r :: s.returned }, .idle)
    | none => some (s.panic, .idle)
  | .getOrInit, .go =>
    match s.once with
    | .empty => some ({ s with once := .initializing }, .runInit)
    | .initializing => none
    | .published r => some ({ s with returned := r :: s.returned }, .idle)
  | .runInit, .create r =>
    match s.runtime r with
    | none => some (s.setRuntime r (.new (resolveWorkerCount env parallelism 0)), .publish r)
    | some _ => none
  | .publish r, .go => some ({ s.publish r with returned := r :: s.returned }, .idle)
  | _, _ => none

/-- The configurations of the threads and the global runtime. -/
abbrev GlobalConfig (κ ι : Type) := Machine.Config (GlobalShared κ) (GlobalPc κ) ι

/-- All interleavings of the threads `ι`, for a value of `HYPERTILE_WORKERS` and what
`available_parallelism` gives. -/
def globalMachine (κ ι : Type) [DecidableEq κ] [DecidableEq ι] (env : Option (List Char))
    (parallelism : Option ℕ) : Machine (GlobalConfig κ ι) (ι × GlobalAct κ) :=
  .threads (fun _ => globalStep env parallelism) ⟨.new, fun _ => .idle⟩

end

/-! ## What a step does -/

section
variable {κ : Type} [DecidableEq κ]

omit [DecidableEq κ] in
/-- What `get` sees. -/
theorem GlobalShared.get_some {s : GlobalShared κ} {r : κ} :
    s.get = some r ↔ s.once = .published r := by
  cases honce : s.once <;> simp [GlobalShared.get, honce]

omit [DecidableEq κ] in
/-- What `get` does not see. -/
theorem GlobalShared.get_none {s : GlobalShared κ} (h : s.get = none) (r : κ) :
    s.once ≠ .published r := by
  intro hr
  rw [GlobalShared.get_some.2 hr] at h
  cases h

/-- `GlobalTrans env parallelism s m a s' m'`: a thread at `m` can take the step `a` from `s`, to
`s'` and `m'`. -/
inductive GlobalTrans (env : Option (List Char)) (parallelism : Option ℕ) (s : GlobalShared κ) :
    GlobalPc κ → GlobalAct κ → GlobalShared κ → GlobalPc κ → Prop
  | exit {m : GlobalPc κ} {r : κ} {k : ℕ} {rt : PoolRuntime} (hrt : s.runtime r = some rt)
      (hstopped : rt.running = false) :
      GlobalTrans env parallelism s m (.exit r k)
        (s.setRuntime r { rt with exited := k :: rt.exited }) m
  | configure {n : ℕ} : GlobalTrans env parallelism s .idle (.configure n) s (.get ⟨n, false⟩)
  | init {n : ℕ} : GlobalTrans env parallelism s .idle (.init n) s (.get ⟨n, true⟩)
  | global : GlobalTrans env parallelism s .idle .global s .getOrInit
  | getSome {call : ConfigureCall} {p : κ} {rt : PoolRuntime} (honce : s.once = .published p)
      (hrt : s.runtime p = some rt) :
      GlobalTrans env parallelism s (.get call) .go s (.ret call none (.error rt.numWorkers))
  | getNone {call : ConfigureCall} :
      GlobalTrans env parallelism s (.get call) .go s (.create call)
  | create {call : ConfigureCall} {r : κ} (hnew : s.runtime r = none) :
      GlobalTrans env parallelism s (.create call) (.create r)
        (s.setRuntime r (.new (resolveWorkerCount env parallelism call.requested))) (.set call r)
  | setWon {call : ConfigureCall} {r : κ} (honce : s.once = .empty) :
      GlobalTrans env parallelism s (.set call r) .go (s.publish r) (.getWon call r)
  | setLost {call : ConfigureCall} {r p : κ} (honce : s.once = .published p) :
      GlobalTrans env parallelism s (.set call r) .go s (.getLost call r)
  | getWon {call : ConfigureCall} {r p : κ} (honce : s.once = .published p) :
      GlobalTrans env parallelism s (.getWon call r) .go s (.ret call (some r) (.ok p))
  | getWonPanic {call : ConfigureCall} {r : κ} (hno : ∀ p, s.once ≠ .published p) :
      GlobalTrans env parallelism s (.getWon call r) .go s.panic .idle
  | getLost {call : ConfigureCall} {r p : κ} {rt : PoolRuntime} (honce : s.once = .published p)
      (hrt : s.runtime p = some rt) :
      GlobalTrans env parallelism s (.getLost call r) .go s (.drop call r rt.numWorkers)
  | getLostPanic {call : ConfigureCall} {r : κ} (hno : ∀ p, s.once ≠ .published p) :
      GlobalTrans env parallelism s (.getLost call r) .go s.panic .idle
  | drop {call : ConfigureCall} {r : κ} {workers : ℕ} {rt : PoolRuntime}
      (hrt : s.runtime r = some rt) :
      GlobalTrans env parallelism s (.drop call r workers) .go
        (s.setRuntime r { rt with running := false, workerThreads := [] })
        (.join call r rt.workerThreads workers)
  | joined {call : ConfigureCall} {r : κ} {workers : ℕ} :
      GlobalTrans env parallelism s (.join call r [] workers) .go s
        (.ret call (some r) (.error workers))
  | join {call : ConfigureCall} {r : κ} {k : ℕ} {toJoin : List ℕ} {workers : ℕ} {rt : PoolRuntime}
      (hrt : s.runtime r = some rt) (hk : k ∈ rt.exited) :
      GlobalTrans env parallelism s (.join call r (k :: toJoin) workers) .go s
        (.join call r toJoin workers)
  | ret {call : ConfigureCall} {candidate : Option κ} {result : Except ℕ κ} :
      GlobalTrans env parallelism s (.ret call candidate result) .go
        { s with configured := ⟨call.requested, candidate, result⟩ :: s.configured } .idle
  | retOk {call : ConfigureCall} {candidate : Option κ} {r : κ} :
      GlobalTrans env parallelism s (.ret call candidate (.ok r)) .go
        { s with
          configured := ⟨call.requested, candidate, .ok r⟩ :: s.configured
          returned := r :: s.returned } .idle
  | retError {call : ConfigureCall} {candidate : Option κ} {workers : ℕ} :
      GlobalTrans env parallelism s (.ret call candidate (.error workers)) .go
        { s with configured := ⟨call.requested, candidate, .error workers⟩ :: s.configured }
        .getStarted
  | getStarted {p : κ} (honce : s.once = .published p) :
      GlobalTrans env parallelism s .getStarted .go { s with returned := p :: s.returned } .idle
  | getStartedPanic (hno : ∀ p, s.once ≠ .published p) :
      GlobalTrans env parallelism s .getStarted .go s.panic .idle
  | enter (honce : s.once = .empty) :
      GlobalTrans env parallelism s .getOrInit .go { s with once := .initializing } .runInit
  | found {p : κ} (honce : s.once = .published p) :
      GlobalTrans env parallelism s .getOrInit .go { s with returned := p :: s.returned } .idle
  | runInit {r : κ} (hnew : s.runtime r = none) :
      GlobalTrans env parallelism s .runInit (.create r)
        (s.setRuntime r (.new (resolveWorkerCount env parallelism 0))) (.publish r)
  | publish {r : κ} :
      GlobalTrans env parallelism s (.publish r) .go
        { s.publish r with returned := r :: s.returned } .idle

/-- What a step can do. -/
theorem globalStep_trans {env : Option (List Char)} {parallelism : Option ℕ} {s s' : GlobalShared κ}
    {m m' : GlobalPc κ} {a : GlobalAct κ}
    (h : globalStep env parallelism s m a = some (s', m')) :
    GlobalTrans env parallelism s m a s' m' := by
  unfold globalStep at h
  split at h
  · obtain ⟨s₁, hs₁, h⟩ := Option.map_eq_some_iff.1 h
    obtain ⟨rt, hrt, hs₁⟩ := Option.bind_eq_some_iff.1 hs₁
    cases h
    split at hs₁
    · cases hs₁
    · next hstopped => cases hs₁; exact .exit hrt (Bool.eq_false_iff.2 hstopped)
  · cases h; exact .configure
  · cases h; exact .init
  · cases h; exact .global
  · split at h
    · next hget =>
      obtain ⟨rt, hrt, h⟩ := Option.map_eq_some_iff.1 h
      cases h
      exact .getSome (GlobalShared.get_some.1 hget) hrt
    · cases h; exact .getNone
  · split at h
    · next hnew => cases h; exact .create hnew
    · cases h
  · split at h
    · next honce => cases h; exact .setWon honce
    · cases h
    · next honce => cases h; exact .setLost honce
  · split at h
    · next hget => cases h; exact .getWon (GlobalShared.get_some.1 hget)
    · next hget => cases h; exact .getWonPanic (GlobalShared.get_none hget)
  · split at h
    · next hget =>
      obtain ⟨rt, hrt, h⟩ := Option.map_eq_some_iff.1 h
      cases h
      exact .getLost (GlobalShared.get_some.1 hget) hrt
    · next hget => cases h; exact .getLostPanic (GlobalShared.get_none hget)
  · obtain ⟨rt, hrt, h⟩ := Option.map_eq_some_iff.1 h
    cases h
    exact .drop hrt
  · cases h; exact .joined
  · obtain ⟨rt, hrt, h⟩ := Option.bind_eq_some_iff.1 h
    split at h
    · next hk => cases h; exact .join hrt hk
    · cases h
  · split at h
    · split at h
      · cases h; exact .retOk
      · cases h; exact .retError
    · cases h; exact .ret
  · split at h
    · next hget => cases h; exact .getStarted (GlobalShared.get_some.1 hget)
    · next hget => cases h; exact .getStartedPanic (GlobalShared.get_none hget)
  · split at h
    · next honce => cases h; exact .enter honce
    · cases h
    · next honce => cases h; exact .found honce
  · split at h
    · next hnew => cases h; exact .runInit hnew
    · cases h
  · cases h; exact .publish
  · cases h

end

end Hypertile
