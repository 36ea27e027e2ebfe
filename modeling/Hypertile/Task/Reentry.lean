import Hypertile.Task.Ownership
import Hypertile.Task.Outcome
import Mathlib.Algebra.Ring.Nat

/-!
# Calls from the code of the user

What code of the user that a task calls may call in turn: the future's poll, the future's destructor
where `run` or `cancel` drops it, and the `wake` of the stored join waker. It runs on the thread of
the call that calls it, so a thread has a stack of calls on the cell, the innermost first, each of
which goes by the steps of the task. A guard lives to the end of its statement: `cancel` and the
last branch of `run` hold the mutex of the future across its destructor, and `complete` and `cancel`
that of the join waker across `wake`. In between, the step of such a call is split in two.

The mutexes are not re-entrant. What keeps a thread from locking one that it holds is that these
sections are entered only once the state is `COMPLETED`, which nothing leaves; the calls that begin
then find it and lock nothing but the mutex of the result, which is not held there
(`StackOk.no_self_lock`). That the destructor never runs where `run` puts the future back needs that
the slot is empty there, for which the token of the future is counted over the stacks.

`clone` and `drop` of a waker are left out, as is the destructor of an output.
-/

namespace Hypertile

open Machine Machine.Threads

variable {θ F T P W : Type}

/-- The mutexes of a task cell. -/
inductive CellLock where
  | future
  | result
  | joinWaker
  deriving DecidableEq

namespace Pc

/-- The mutex that the next step of a call locks. -/
def locks : Pc F T P W → Option CellLock
  | .run .take | .run (.putBack _) | .run .clear | .cancel .clear => some .future
  | .run (.complete (.lock _)) | .cancel .publish | .join (.lock _) => some .result
  | .run (.complete .wakeJoin) | .cancel .wakeJoin | .join (.store _) => some .joinWaker
  | _ => none

/-- The next step of a call runs code of the user before it unlocks: the destructor of the future
that is in the slot, or `wake` of the stored waker. -/
def opens (s : Shared θ F T P W) : Pc F T P W → Bool
  | .run (.putBack _) | .run .clear | .cancel .clear => s.cell.future.isSome
  | .run (.complete .wakeJoin) | .cancel .wakeJoin => s.cell.joinWaker.isSome
  | _ => false

end Pc

/-- A call: where it goes on, and the mutex that it holds while it runs code of the user first. -/
structure Frame (F T P W : Type) where
  pc : Pc F T P W
  held : Option CellLock
  deriving DecidableEq

namespace Frame

/-- Code of the user runs: the poll or the destructor of an ended future, or under a mutex. -/
def inUser (f : Frame F T P W) : Bool :=
  match f.held, f.pc with
  | some _, _ | none, .run (.poll _) | none, .run (.drop _ _) => true
  | _, _ => false

/-- The call holds the mutex. -/
def holds (f : Frame F T P W) (lock : CellLock) : Prop :=
  f.held = some lock ∨ lock = .result ∧ f.pc.inLock = true

end Frame

/-- A stack on which a call goes on at `pc`, or returns. -/
def pushFrame (pc : Pc F T P W) (held : Option CellLock) (rest : List (Frame F T P W)) :
    List (Frame F T P W) :=
  match pc, held with
  | .idle, none => rest
  | _, _ => ⟨pc, held⟩ :: rest

/-- What the calls share, with the mutexes that are held across code of the user. -/
structure ReentryShared (θ F T P W : Type) where
  task : Shared θ F T P W
  locked : CellLock → Bool

/-- A label that makes a call. -/
def Label.begins : Label F T P W → Bool
  | .runQueued | .runClone | .injectClone | .wake | .cancel | .pollJoin _ => true
  | _ => false

/-- Code of the user makes a call. -/
def beginFrame (s : ReentryShared θ F T P W) (stack : List (Frame F T P W)) (a : Label F T P W) :
    Option (ReentryShared θ F T P W × List (Frame F T P W)) :=
  (startCall s.task a).map fun r => ({ s with task := r.1 }, pushFrame r.2 none stack)

/-- A step of the innermost call. -/
def frameStep (t : θ) (s : ReentryShared θ F T P W) (f : Frame F T P W)
    (rest : List (Frame F T P W)) (a : Label F T P W) :
    Option (ReentryShared θ F T P W × List (Frame F T P W)) :=
  match f.held with
  | some lock =>
    match a with
    | .go =>
      some ({ s with locked := Function.update s.locked lock false }, pushFrame f.pc none rest)
    | _ => none
  | none =>
    if f.pc.locks.any s.locked then none
    else (callStep t s.task f.pc a).map fun r =>
      match f.pc.opens s.task, f.pc.locks with
      | true, some lock =>
        (⟨r.1, Function.update s.locked lock true⟩, pushFrame r.2 (some lock) rest)
      | _, _ => ({ s with task := r.1 }, pushFrame r.2 none rest)

/-- A step of a thread. -/
def reentryStep (t : θ) (s : ReentryShared θ F T P W) (stack : List (Frame F T P W))
    (a : Label F T P W) : Option (ReentryShared θ F T P W × List (Frame F T P W)) :=
  match stack with
  | [] => if a.begins then beginFrame s [] a else none
  | f :: rest =>
    if a.begins then if f.inUser then beginFrame s (f :: rest) a else none
    else frameStep t s f rest a

/-- The configurations of one task and the stacks of the threads. -/
abbrev ReentryConfig (θ F T P W : Type) := Config (ReentryShared θ F T P W) (List (Frame F T P W)) θ

/-- A task that is spawned with the future `fut`, and threads that have called nothing. -/
def reentryStart (θ : Type) {F T P W : Type} (fut : F) : ReentryConfig θ F T P W :=
  ⟨⟨.new fut, fun _ => false⟩, fun _ => []⟩

/-- All interleavings of the threads `θ`. -/
def reentryMachine (θ : Type) [DecidableEq θ] {F T P W : Type} (fut : F) :
    Machine (ReentryConfig θ F T P W) (θ × Label F T P W) :=
  .threads reentryStep (reentryStart θ fut)

/-- No thread is about to lock a mutex of the cell that it holds. -/
def NoSelfLock (c : ReentryConfig θ F T P W) : Prop :=
  ∀ t f rest lock, c.loc t = f :: rest → f.held = none → f.pc.locks = some lock →
    ∀ g ∈ f :: rest, ¬ g.holds lock

/-! ## The steps -/

/-- `ReentryTrans t s stack s' stack'`: thread `t` can take a step from `s`, to `s'` and
`stack'`. -/
inductive ReentryTrans (t : θ) (s : ReentryShared θ F T P W) :
    List (Frame F T P W) → ReentryShared θ F T P W → List (Frame F T P W) → Prop
  | begin {stack : List (Frame F T P W)} {a : Label F T P W} {task' : Shared θ F T P W}
      {pc : Pc F T P W} (h : CallTrans t s.task .idle a task' pc)
      (huser : ∀ f ∈ stack.head?, f.inUser = true) :
      ReentryTrans t s stack { s with task := task' } (pushFrame pc none stack)
  | step {f : Frame F T P W} {rest : List (Frame F T P W)} {a : Label F T P W}
      {task' : Shared θ F T P W} {pc : Pc F T P W} (h : CallTrans t s.task f.pc a task' pc) :
      ReentryTrans t s (f :: rest) { s with task := task' } (pushFrame pc none rest)
  | opening {f : Frame F T P W} {rest : List (Frame F T P W)} {a : Label F T P W}
      {task' : Shared θ F T P W} {pc : Pc F T P W} {lock : CellLock}
      (h : CallTrans t s.task f.pc a task' pc) (hheld : f.held = none)
      (hopens : f.pc.opens s.task = true) (hlock : f.pc.locks = some lock) :
      ReentryTrans t s (f :: rest) ⟨task', Function.update s.locked lock true⟩
        (pushFrame pc (some lock) rest)
  | closing {f : Frame F T P W} {rest : List (Frame F T P W)} {lock : CellLock}
      (hheld : f.held = some lock) :
      ReentryTrans t s (f :: rest) { s with locked := Function.update s.locked lock false }
        (pushFrame f.pc none rest)

section
variable {t : θ} {s s' : ReentryShared θ F T P W} {stack stack' : List (Frame F T P W)}
  {a : Label F T P W}

/-- A call that is made is one of the steps. -/
theorem beginFrame_trans (huser : ∀ f ∈ stack.head?, f.inUser = true)
    (h : beginFrame s stack a = some (s', stack')) : ReentryTrans t s stack s' stack' := by
  obtain ⟨⟨task', pc⟩, hstart, he⟩ := Option.map_eq_some_iff.1 h
  cases he
  exact .begin (startCall_trans hstart) huser

/-- A step of the innermost call is one of the steps. -/
theorem frameStep_trans {f : Frame F T P W} {rest : List (Frame F T P W)}
    (h : frameStep t s f rest a = some (s', stack')) : ReentryTrans t s (f :: rest) s' stack' := by
  unfold frameStep at h
  split at h
  · next hheld =>
    split at h
    · cases h
      exact .closing hheld
    · cases h
  · next hheld =>
    split at h
    · cases h
    · obtain ⟨⟨task', pc⟩, hstep, he⟩ := Option.map_eq_some_iff.1 h
      have ht := callStep_trans hstep
      split at he
      · next hopens hlock =>
        cases he
        exact .opening ht hheld hopens hlock
      · cases he
        exact .step ht

/-- Every step of a thread is one of these. -/
theorem reentryStep_trans (h : reentryStep t s stack a = some (s', stack')) :
    ReentryTrans t s stack s' stack' := by
  unfold reentryStep at h
  split at h
  · split at h
    · exact beginFrame_trans nofun h
    · cases h
  · next f rest =>
    split at h
    · split at h
      · next huser =>
        refine beginFrame_trans ?_ h
        rintro g hg
        cases hg
        exact huser
      · cases h
    · exact frameStep_trans h

end

/-! ## What holds of every run -/

namespace Pc

/-- A call that was made when the state was `COMPLETED` can stand here. -/
def late : Pc F T P W → Bool
  | .idle | .run .claim | .wake .load | .cancel .swap => true
  | .join (.lock _) | .join (.take _) | .join (.load _) | .join (.ret _) => true
  | _ => false

/-- The call stands here only once the state is `COMPLETED`. -/
def settled : Pc F T P W → Bool
  | .run .clear | .run (.complete (.publish _)) | .run (.complete .unlock)
  | .run (.complete .wakeJoin) => true
  | .cancel .clear | .cancel .publish | .cancel .wakeJoin => true
  | _ => false

end Pc

section
variable {i : θ} {s s' : Shared θ F T P W} {pc pc' : Pc F T P W} {a : Label F T P W}

/-- A call that is made when the state is `COMPLETED` stays late. -/
theorem CallTrans.late (h : CallTrans i s pc a s' pc') (hs : s.cell.state = .completed)
    (hpc : pc.late = true) : pc'.late = true := by
  cases h with
  | claim hs' => rw [hs] at hs'; cases hs'
  | wakeLoad hc | cancelSwap hc | joinLoad hc => exact absurd hs hc
  | runQueued | runClone | injectClone | wakeCall | cancelCall | joinCall => rfl
  | claimLost | wakeLoadCompleted | wakeLoadScheduled | cancelSwapLost => rfl
  | joinLock | joinTake | joinTakeEmpty | joinLoadCompleted | joinReturn => rfl
  | _ => cases hpc

/-- A call goes on only once the state is `COMPLETED` where it must. -/
theorem CallTrans.settled (h : CallTrans i s pc a s' pc')
    (hpc : pc.settled = true → s.cell.state = .completed) (hpc' : pc'.settled = true) :
    s'.cell.state = .completed := by
  cases h with
  | runLoadCompleted hs => exact hs
  | completeSwap | cancelSwap => rfl
  | completePublish | completeUnlock => exact hpc rfl
  | cancelClear | cancelClearEmpty | cancelPublish => exact hpc rfl
  | _ => cases hpc'

/-- A late call locks the mutex of the result or none. -/
theorem Pc.locks_of_late {lock : CellLock} (hpc : pc.late = true) (hlock : pc.locks = some lock) :
    lock = .result := by
  cases pc with
  | idle => cases hlock
  | run pc =>
    cases pc with
    | claim => cases hlock
    | _ => cases hpc
  | wake pc =>
    cases pc with
    | load => cases hlock
    | _ => cases hpc
  | cancel pc =>
    cases pc with
    | swap => cases hlock
    | _ => cases hpc
  | join pc =>
    cases pc with
    | lock => cases hlock; rfl
    | store => cases hpc
    | _ => cases hlock

/-- A late call runs no code of the user under a mutex. -/
theorem Pc.opens_of_late (hpc : pc.late = true) : pc.opens s = false := by
  cases pc with
  | idle => rfl
  | run pc =>
    cases pc with
    | claim => rfl
    | _ => cases hpc
  | wake => rfl
  | cancel pc =>
    cases pc with
    | swap => rfl
    | _ => cases hpc
  | join => rfl

/-- A call that locks a mutex does not hold that of the result, where this is the one it locks. -/
theorem Pc.inLock_of_locks (hlock : pc.locks = some .result) : pc.inLock = false := by
  cases pc with
  | run pc =>
    cases pc with
    | complete pc =>
      cases pc with
      | lock => rfl
      | _ => cases hlock
    | _ => cases hlock
  | cancel => rfl
  | join pc =>
    cases pc with
    | lock => rfl
    | _ => cases hlock
  | _ => cases hlock

/-- A call that runs code of the user under a mutex goes on without the mutex of the result, and it
is at its put-back, where the slot is not empty, or the state is `COMPLETED`. -/
theorem CallTrans.opening (h : CallTrans i s pc a s' pc') (hopens : pc.opens s = true) :
    pc'.inLock = false ∧ pc.locks ≠ some .result ∧
      (pc.settled = true ∨ pc.holdsFuture = true ∧ s.cell.future.isSome = true) := by
  cases h with
  | putBack hf | putBackOver hf => exact ⟨rfl, nofun, .inr ⟨rfl, hopens⟩⟩
  | runClear | runClearEmpty | runClearUnwind => exact ⟨rfl, nofun, .inl rfl⟩
  | completeWakeJoin | completeWakeNone => exact ⟨rfl, nofun, .inl rfl⟩
  | cancelClear | cancelClearEmpty | cancelClearUnwind => exact ⟨rfl, nofun, .inl rfl⟩
  | cancelWakeJoin | cancelWakeNone => exact ⟨rfl, nofun, .inl rfl⟩
  | _ => cases hopens

/-- A call that runs code of the user without a mutex does not hold that of the result. -/
theorem Frame.inLock_of_inUser {f : Frame F T P W} (hheld : f.held = none)
    (huser : f.inUser = true) : f.pc.inLock = false := by
  obtain ⟨pc, held⟩ := f
  cases hheld
  cases pc with
  | run pc =>
    cases pc with
    | poll | drop => rfl
    | _ => cases huser
  | _ => cases huser

end

/-- What holds of the stack of a thread in every run. -/
structure StackOk (s : Shared θ F T P W) (stack : List (Frame F T P W)) : Prop where
  casOk : ∀ f ∈ stack, f.pc.CasOk
  /-- A call is past the swap, or holds a mutex across code of the user, only once the state is
  `COMPLETED`. -/
  completed : ∀ f ∈ stack, f.pc.settled = true ∨ f.held.isSome = true → s.cell.state = .completed
  /-- The mutex of the result is not held across code of the user. -/
  result : ∀ f ∈ stack, f.held.isSome = true → f.held ≠ some .result ∧ f.pc.inLock = false
  /-- A call that has called code of the user is below the calls that this makes. -/
  user : ∀ f ∈ stack.tail, f.inUser = true
  /-- The calls that are made while a mutex is held are late. -/
  late : stack.Pairwise fun f g => g.held.isSome = true → f.held = none ∧ f.pc.late = true

section
variable {t : θ} {s s' : ReentryShared θ F T P W} {stack stack' rest : List (Frame F T P W)}
  {task task' : Shared θ F T P W} {pc : Pc F T P W} {held : Option CellLock} {f : Frame F T P W}

/-- The calls of a stack stay as they are while other threads move. -/
theorem StackOk.mono (h : StackOk task stack)
    (hs : task.cell.state = .completed → task'.cell.state = .completed) : StackOk task' stack :=
  ⟨h.casOk, fun f hf hset => hs (h.completed f hf hset), h.result, h.user, h.late⟩

/-- The calls of a stack without the innermost one. -/
theorem StackOk.tail (h : StackOk task (f :: rest)) : StackOk task rest where
  casOk g hg := h.casOk g (List.mem_cons_of_mem f hg)
  completed g hg := h.completed g (List.mem_cons_of_mem f hg)
  result g hg := h.result g (List.mem_cons_of_mem f hg)
  user g hg := h.user g (List.mem_of_mem_tail hg)
  late := (List.pairwise_cons.1 h.late).2

/-- A call goes on, or is made, or returns, on a stack of calls that have called code of the user.
-/
theorem StackOk.push (h : StackOk task rest) (huser : ∀ g ∈ rest, g.inUser = true)
    (hcas : pc.CasOk) (hcompleted : pc.settled = true ∨ held.isSome = true →
      task.cell.state = .completed)
    (hresult : held.isSome = true → held ≠ some .result ∧ pc.inLock = false)
    (hlate : ∀ g ∈ rest, g.held.isSome = true → held = none ∧ pc.late = true) :
    StackOk task (pushFrame pc held rest) := by
  have hcons : StackOk task (⟨pc, held⟩ :: rest) :=
    ⟨List.forall_mem_cons.2 ⟨hcas, h.casOk⟩, List.forall_mem_cons.2 ⟨hcompleted, h.completed⟩,
      List.forall_mem_cons.2 ⟨hresult, h.result⟩, huser, List.pairwise_cons.2 ⟨hlate, h.late⟩⟩
  unfold pushFrame
  split
  · exact h
  · exact hcons

/-- The state stays `COMPLETED`. -/
theorem ReentryTrans.completed (h : ReentryTrans t s stack s' stack') (hok : StackOk s.task stack)
    (hs : s.task.cell.state = .completed) : s'.task.cell.state = .completed := by
  cases h with
  | begin ht => exact ht.completed trivial hs
  | step ht => exact ht.completed (hok.casOk _ List.mem_cons_self) hs
  | opening ht => exact ht.completed (hok.casOk _ List.mem_cons_self) hs
  | closing => exact hs

/-- A step of a thread keeps what holds of its stack, where a future that is held is not in the
slot. -/
theorem ReentryTrans.stackOk (h : ReentryTrans t s stack s' stack') (hok : StackOk s.task stack)
    (hslot : ∀ f ∈ stack, f.pc.holdsFuture = true → s.task.cell.future = none) :
    StackOk s'.task stack' := by
  have hmono := hok.mono (h.completed hok)
  cases h with
  | @begin _ _ task' pc ht huser =>
    have hall : ∀ g ∈ stack, g.inUser = true := by
      intro g hg
      cases stack with
      | nil => cases hg
      | cons f rest =>
        rcases List.mem_cons.1 hg with rfl | hg
        · exact huser g rfl
        · exact hok.user g hg
    refine hmono.push hall ht.casOk ?_ nofun ?_
    · rintro (hset | hheld)
      · exact ht.settled nofun hset
      · cases hheld
    · intro g hg hheld
      exact ⟨rfl, ht.late (hok.completed g hg (.inr hheld)) rfl⟩
  | @step f rest _ task' pc ht =>
    refine hmono.tail.push hok.user ht.casOk ?_ nofun ?_
    · rintro (hset | hheld)
      · exact ht.settled (fun hpc => hok.completed f List.mem_cons_self (.inl hpc)) hset
      · cases hheld
    · intro g hg hheld
      have hf := (List.pairwise_cons.1 hok.late).1 g hg hheld
      have hs := hok.completed g (List.mem_cons_of_mem f hg) (.inr hheld)
      exact ⟨rfl, ht.late hs hf.2⟩
  | @opening f rest _ task' pc lock ht hheld hopens hlock =>
    obtain ⟨hin, hne, hwhy⟩ := ht.opening hopens
    have hcompleted : s.task.cell.state = .completed := by
      rcases hwhy with hset | ⟨hholds, hsome⟩
      · exact hok.completed f List.mem_cons_self (.inl hset)
      · rw [hslot f List.mem_cons_self hholds] at hsome
        cases hsome
    refine hmono.tail.push hok.user ht.casOk ?_ ?_ ?_
    · intro _
      exact ht.completed (hok.casOk f List.mem_cons_self) hcompleted
    · intro _
      exact ⟨hlock ▸ hne, hin⟩
    · intro g hg hgheld
      have hf := (List.pairwise_cons.1 hok.late).1 g hg hgheld
      rw [Pc.opens_of_late hf.2] at hopens
      cases hopens
  | @closing f rest lock hheld =>
    refine hmono.tail.push hok.user (hok.casOk f List.mem_cons_self) ?_ nofun ?_
    · rintro (hset | hno)
      · exact hok.completed f List.mem_cons_self (.inl hset)
      · cases hno
    · intro g hg hgheld
      have hf := (List.pairwise_cons.1 hok.late).1 g hg hgheld
      rw [hheld] at hf
      cases hf.1

/-- A thread with such a stack is not about to lock a mutex that it holds. -/
theorem StackOk.no_self_lock (h : StackOk task (f :: rest)) (hheld : f.held = none)
    {lock : CellLock} (hlock : f.pc.locks = some lock) : ∀ g ∈ f :: rest, ¬ g.holds lock := by
  have hown : ¬ f.holds lock := by
    rintro (heq | ⟨rfl, hin⟩)
    · rw [hheld] at heq
      cases heq
    · rw [Pc.inLock_of_locks hlock] at hin
      cases hin
  refine List.forall_mem_cons.2 ⟨hown, fun g hg => ?_⟩
  rintro (heq | ⟨rfl, hin⟩)
  · -- `g` holds the mutex across code of the user, so `f` is late and locks that of the result
    have hsome : g.held.isSome = true := by rw [heq]; rfl
    have hf := (List.pairwise_cons.1 h.late).1 g hg hsome
    rw [Pc.locks_of_late hf.2 hlock] at heq
    exact (h.result g (List.mem_cons_of_mem f hg) hsome).1 heq
  · cases hgheld : g.held with
    | none =>
      rw [Frame.inLock_of_inUser hgheld (h.user g hg)] at hin
      cases hin
    | some lock =>
      have hres := (h.result g (List.mem_cons_of_mem f hg) (by rw [hgheld]; rfl)).2
      rw [hres] at hin
      cases hin

end

/-! ## The token of the future -/

/-- The token of a thread that holds the future. -/
def stackTokens (stack : List (Frame F T P W)) : ℕ := (stack.map fun f => f.pc.futureTokens).sum

/-- The tokens of the shared state. -/
def ReentryShared.tokens (s : ReentryShared θ F T P W) : ℕ := s.task.futureTokens

/-- A call that returns holds no token. -/
theorem stackTokens_push (pc : Pc F T P W) (held : Option CellLock) (rest : List (Frame F T P W)) :
    stackTokens (pushFrame pc held rest) = pc.futureTokens + stackTokens rest := by
  unfold pushFrame
  split
  · rw [show (Pc.idle : Pc F T P W).futureTokens = 0 from rfl, zero_add]
  · simp [stackTokens]

/-- Every step keeps the tokens of the shared state and its thread together. -/
theorem ReentryTrans.owned {t : θ} {s s' : ReentryShared θ F T P W}
    {stack stack' : List (Frame F T P W)} (h : ReentryTrans t s stack s' stack') :
    s'.tokens + stackTokens stack' = s.tokens + stackTokens stack := by
  cases h with
  | @begin _ _ task' pc ht =>
    have howned := ht.owned
    rw [show (Pc.idle : Pc F T P W).futureTokens = 0 from rfl, add_zero] at howned
    rw [stackTokens_push, ← add_assoc]
    exact congrArg (· + _) howned
  | @step f rest _ task' pc ht =>
    rw [stackTokens_push, ← add_assoc]
    exact (congrArg (· + _) ht.owned).trans (by simp [stackTokens, ReentryShared.tokens, add_assoc])
  | @opening f rest _ task' pc lock ht =>
    rw [stackTokens_push, ← add_assoc]
    exact (congrArg (· + _) ht.owned).trans (by simp [stackTokens, ReentryShared.tokens, add_assoc])
  | @closing f rest =>
    rw [stackTokens_push]
    rfl

section
variable [DecidableEq θ] [Fintype θ] {fut : F} {c : ReentryConfig θ F T P W}
  {G : ReentryConfig θ F T P W → θ × Label F T P W → Prop}

/-- There is one token in every state reached. -/
theorem reachable_stackTokens (h : (reentryMachine θ fut).Reachable G c) :
    total ReentryShared.tokens stackTokens c = 1 := by
  refine Threads.invariant (J := fun _ => True)
    (I := fun c => total ReentryShared.tokens stackTokens c = 1) h (fun _ _ => trivial) ?_ ?_
  · simp [total, reentryStart, ReentryShared.tokens, Shared.futureTokens, Shared.new, stackTokens,
      timesDropped]
  · rintro c t a s' _ stack' _ hI _ rfl hst
    exact (total_step (reentryStep_trans hst).owned).trans hI

/-- A future that some call holds is not in the slot. -/
theorem slot_empty_of_holdsFuture (h : total ReentryShared.tokens stackTokens c = 1) {t : θ}
    {f : Frame F T P W} (hf : f ∈ c.loc t) (hholds : f.pc.holdsFuture = true) :
    c.shared.task.cell.future = none := by
  have hle := h ▸ le_total ReentryShared.tokens stackTokens c t
  have hpos : f.pc.futureTokens ≤ stackTokens (c.loc t) :=
    List.single_le_sum (fun _ _ => Nat.zero_le _) _ (List.mem_map_of_mem hf)
  have hone := pos_futureTokens hholds
  have hzero : c.shared.task.futureTokens = 0 := by
    change c.shared.task.futureTokens + stackTokens (c.loc t) ≤ 1 at hle
    omega
  cases hfuture : c.shared.task.cell.future with
  | none => rfl
  | some f => simp [Shared.futureTokens, hfuture] at hzero

/-- What holds of the stacks holds in every state reached. -/
theorem reachable_stackOk (h : (reentryMachine θ fut).Reachable G c) (t : θ) :
    StackOk c.shared.task (c.loc t) := by
  refine Threads.invariant (J := fun c => total ReentryShared.tokens stackTokens c = 1)
    (I := fun c => ∀ t, StackOk c.shared.task (c.loc t)) h (fun _ h => reachable_stackTokens h)
    ?_ ?_ t
  · intro t
    exact ⟨nofun, nofun, nofun, nofun, .nil⟩
  · rintro c t a s' _ stack' htokens hI _ rfl hst
    have ht := reentryStep_trans hst
    refine (Function.forall_update_iff c.loc fun _ stack => StackOk s'.task stack).2 ⟨?_, ?_⟩
    · exact ht.stackOk (hI t) fun f hf => slot_empty_of_holdsFuture htokens hf
    · exact fun j _ => (hI j).mono (ht.completed (hI t))

/-- Code of the user may call the task cell again. Whatever calls of `wake`, `cancel`, `poll` and
`run` are nested in the future's poll, in its destructor where `run` or `cancel` drops it, and in
`wake` of the join waker as `complete` and `cancel` call it, and whatever other threads do: no call
is about to lock a mutex of the cell that its thread holds. -/
theorem no_self_deadlock (h : (reentryMachine θ fut).Reachable anyStep c) : NoSelfLock c := by
  intro t f rest lock hstack hheld hlock
  exact (hstack ▸ reachable_stackOk h t).no_self_lock hheld hlock

end

/-- The task is cancelled before it is run. The destructor of the future runs a clone of the handle,
cancels, wakes and polls the `JoinHandle`. -/
def destructorRun : List (Unit × Label ℕ ℕ ℕ ℕ) :=
  [((), .cancel), ((), .go), ((), .go), ((), .runClone), ((), .go), ((), .cancel), ((), .go),
    ((), .wake), ((), .go), ((), .pollJoin 5)]

/-- In that run the thread is about to lock the mutex of the result while it holds that of the
future. -/
theorem no_self_deadlock_destructor :
    ∃ c, (reentryMachine Unit 3).run (reentryStart Unit 3) destructorRun = some c ∧
      c.loc () = [⟨.join (.lock 5), none⟩, ⟨.cancel .publish, some .future⟩] ∧ NoSelfLock c :=
  ⟨_, rfl, rfl, no_self_deadlock (reach_of_run destructorRun rfl)⟩

end Hypertile
