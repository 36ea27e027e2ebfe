import Hypertile.Task.Unwind

/-!
# Tasks that await each other

The model of a program on the runtime: any number of tasks, each with the cell of `task.rs` and all
interleavings of the calls on it; the `JoinHandle` of a task is awaited by another task, or by the
thread that called `block_on` (`runtime.rs`). A join waker that is woken calls `wake_by_ref` on the
task that awaits, or unparks the thread; between the two, other threads can move. Tasks also wait
for events from outside the runtime, which fire at any time and wake who has registered.

Of the futures it is assumed what every future promises: a poll that returns `Pending` has found
something pending, a `JoinHandle` or an event, that was polled with the task's waker in this very
poll. Tasks are spawned, woken and cancelled at any time. Destructors do not panic, and handles are
the runtime's own; `owed` counts the wakers that have been woken and whose call has not begun.
-/

namespace Hypertile

/-- Who awaits a `JoinHandle`: a task, with its waker, or the thread in `block_on`. -/
inductive Awaiter (κ : Type) where
  | task (k : κ)
  | blocked
  deriving DecidableEq

/-- What a poll finds pending: the `JoinHandle` of a task, or an event. -/
inductive PendingSource (κ ε : Type) where
  | task (k : κ)
  | event (e : ε)
  deriving DecidableEq

/-- Where `block_on` stands: about to poll, in the poll, about to park, and after its return. -/
inductive BlockPc (T P : Type) where
  | poll
  | polling
  | park
  | done (outcome : Except (JoinError P) T)
  deriving DecidableEq

/-- Who awaits the handle of each task, if anybody; `block_on` awaits one. -/
structure Awaits (κ : Type) where
  parent : κ → Option (Awaiter κ)
  root : κ
  parent_root : parent root = some .blocked
  eq_root {k : κ} (h : parent k = some .blocked) : k = root

/-- The state of all tasks. -/
structure TaskSystem (κ ε ι F T P : Type) where
  cell : κ → TaskConfig ι F T P (Awaiter κ)
  spawned : κ → Bool
  fired : ε → Bool
  /-- The tasks whose waker is registered with an event. -/
  registered : ε → List κ
  owed : Awaiter κ → ℕ
  /-- What the poll of a task under way, or the last one, has found pending. -/
  pendingOn : κ → List (PendingSource κ ε)
  /-- The task whose handle is being polled by an awaiter. -/
  polls : Awaiter κ → Option κ
  block : BlockPc T P
  /-- The parker of `block_on` has an unpark token. -/
  token : Bool

/-- What is chosen. -/
inductive SystemAct (κ ε ι F T P : Type) where
  | spawn (k : κ)
  /-- A step of a call on a task, or the call itself, by anyone. -/
  | call (k : κ) (i : ι) (a : Label F T P (Awaiter κ))
  /-- Task `p`, polled by its call `j`, polls the handle of task `k`, as call `i` on it. -/
  | pollJoin (p : κ) (j : ι) (k : κ) (i : ι)
  /-- Task `p`, polled by its call `j`, polls an event. -/
  | pollEvent (p : κ) (j : ι) (e : ε)
  | fire (e : ε)
  /-- A waker that is owed a wake is woken; of a task, as call `i` on it. -/
  | wake (w : Awaiter κ) (i : ι)
  /-- `block_on` polls, as call `i` on its task, or parks. -/
  | block (i : ι)

section
variable {κ ε ι F T P : Type} [DecidableEq κ] [DecidableEq ε] [DecidableEq ι]

/-- The event means something to other tasks. -/
def Event.matters {W : Type} : Event ι T P W → Bool
  | .pollBegan _ | .joinWoken _ | .joinReturned _ => true
  | _ => false

/-- The event that a step has added to the log. -/
def newest {W : Type} (s s' : Shared ι F T P W) : Option (Event ι T P W) :=
  if s.log.length < s'.log.length then s'.log.head? else none

/-- The step is no clone of a handle, no panic of a destructor and no poll of the `JoinHandle`. -/
def Label.plain {W : Type} : Label F T P W → Bool
  | .runClone | .injectClone | .unwind | .pollJoin _ => false
  | _ => true

namespace TaskSystem

/-- The poll of the handle of `k` by `w` has returned. -/
def joinReturned (s : TaskSystem κ ε ι F T P) (k : κ) (w : Awaiter κ)
    (r : JoinPoll T P (Awaiter κ)) : TaskSystem κ ε ι F T P :=
  { s with
    polls := Function.update s.polls w none
    pendingOn := match w, r with
      | .task p, .pending _ => Function.update s.pendingOn p (.task k :: s.pendingOn p)
      | .task p, .ready _ =>
        Function.update s.pendingOn p ((s.pendingOn p).filter (· ≠ .task k))
      | .blocked, _ => s.pendingOn
    block := match w, r with
      | .task _, _ => s.block
      | .blocked, .pending _ => .park
      | .blocked, .ready o => .done o }

/-- What an event on the cell of `k` means to the other tasks. -/
def observe (aw : Awaits κ) (s : TaskSystem κ ε ι F T P) (k : κ) :
    Option (Event ι T P (Awaiter κ)) → TaskSystem κ ε ι F T P
  | some (.pollBegan _) => { s with pendingOn := Function.update s.pendingOn k [] }
  | some (.joinWoken w) => { s with owed := Function.update s.owed w (s.owed w + 1) }
  | some (.joinReturned r) =>
    match aw.parent k with
    | some w => s.joinReturned k w r
    | none => s
  | _ => s

/-- Call `i` on task `k` has moved: to `pc`, with the shared state `σ`. -/
def withCall (s : TaskSystem κ ε ι F T P) (k : κ) (i : ι) (σ : Shared ι F T P (Awaiter κ))
    (pc : Pc F T P (Awaiter κ)) : TaskSystem κ ε ι F T P :=
  let c : TaskConfig ι F T P (Awaiter κ) := ⟨σ, Function.update (s.cell k).loc i pc⟩
  { s with cell := Function.update s.cell k c }

/-- Call `i` on task `k` has moved, with what that means to the other tasks. -/
def moved (aw : Awaits κ) (s : TaskSystem κ ε ι F T P) (k : κ) (i : ι)
    (σ : Shared ι F T P (Awaiter κ)) (pc : Pc F T P (Awaiter κ)) : TaskSystem κ ε ι F T P :=
  (s.withCall k i σ pc).observe aw k (newest (s.cell k).shared σ)

/-- A step of call `i` on task `k`. -/
def callOn (aw : Awaits κ) (s : TaskSystem κ ε ι F T P) (k : κ) (i : ι)
    (a : Label F T P (Awaiter κ)) : Option (TaskSystem κ ε ι F T P) :=
  if s.spawned k then
    (callStep i (s.cell k).shared ((s.cell k).loc i) a).map fun r => s.moved aw k i r.1 r.2
  else none

/-- The poll of task `k` can end so: no poll of a handle is under way in it, and it has found
something pending if it is. -/
def mayEnd (s : TaskSystem κ ε ι F T P) (k : κ) : PollResult T P → Bool
  | .pending => (s.polls (.task k)).isNone && !(s.pendingOn k).isEmpty
  | _ => (s.polls (.task k)).isNone

/-- `p` has polled an event. -/
def pollEvent (s : TaskSystem κ ε ι F T P) (p : κ) (e : ε) : TaskSystem κ ε ι F T P :=
  { s with
    registered :=
      if s.fired e then s.registered else Function.update s.registered e (p :: s.registered e)
    pendingOn := Function.update s.pendingOn p
      (if s.fired e then (s.pendingOn p).filter (· ≠ .event e) else .event e :: s.pendingOn p) }

/-- An event fires: who has registered is woken. -/
def fire (s : TaskSystem κ ε ι F T P) (e : ε) : TaskSystem κ ε ι F T P :=
  { s with
    fired := Function.update s.fired e true
    registered := Function.update s.registered e []
    owed := fun
      | .task k => s.owed (.task k) + (s.registered e).count k
      | .blocked => s.owed .blocked }

/-- One call of `wake` that was owed has begun. -/
def paid (s : TaskSystem κ ε ι F T P) (w : Awaiter κ) : TaskSystem κ ε ι F T P :=
  { s with owed := Function.update s.owed w (s.owed w - 1) }

/-- One step. -/
def step (aw : Awaits κ) (s : TaskSystem κ ε ι F T P) :
    SystemAct κ ε ι F T P → Option (TaskSystem κ ε ι F T P)
  | .spawn k => if s.spawned k then none
    else some { s with spawned := Function.update s.spawned k true }
  | .call k i (.polled fut r) => if s.mayEnd k r then s.callOn aw k i (.polled fut r) else none
  | .call k i a => if a.plain then s.callOn aw k i a else none
  | .pollJoin p j k i =>
    if aw.parent k = some (.task p) ∧ s.polls (.task p) = none ∧
        ((s.cell p).loc j).polling = true then
      (s.callOn aw k i (.pollJoin (.task p))).map fun s' =>
        { s' with polls := Function.update s'.polls (.task p) (some k) }
    else none
  | .pollEvent p j e =>
    if s.polls (.task p) = none ∧ ((s.cell p).loc j).polling = true then some (s.pollEvent p e)
    else none
  | .fire e => if s.fired e then none else some (s.fire e)
  | .wake (.task k) i =>
    if 0 < s.owed (.task k) then (s.paid (.task k)).callOn aw k i .wake else none
  | .wake .blocked _ =>
    if 0 < s.owed .blocked then some { s.paid .blocked with token := true } else none
  | .block i =>
    match s.block with
    | .poll => (s.callOn aw aw.root i (.pollJoin .blocked)).map fun s' =>
      { s' with polls := Function.update s'.polls .blocked (some aw.root), block := .polling }
    | .park => if s.token then some { s with token := false, block := .poll } else none
    | .polling | .done _ => none

/-- No task is spawned, and `block_on` is called. -/
def new (fut : κ → F) : TaskSystem κ ε ι F T P where
  cell k := ⟨.new (fut k), fun _ => .idle⟩
  spawned _ := false
  fired _ := false
  registered _ := []
  owed _ := 0
  pendingOn _ := []
  polls _ := none
  block := .poll
  token := false

end TaskSystem

/-- All interleavings of the tasks with these futures, of which these await each other. -/
def systemMachine (aw : Awaits κ) (fut : κ → F) :
    Machine (TaskSystem κ ε ι F T P) (SystemAct κ ε ι F T P) where
  init := .new fut
  step := TaskSystem.step aw

end

end Hypertile
