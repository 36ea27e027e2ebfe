import Hypertile.Coroutine.Once

/-!
# What a coroutine is resumed with

The wake callback that `run` gives to `add_done_callback` of a yielded object, and what the
coroutine is then resumed with. An object calls the callback with itself as the argument, as asyncio
does, or without an argument, as the tasks of the bindings do (`wrap_done_callback` tries this
first). The callback asks it for its `exception` and its `result`, each of which can raise, and
stores what it gets as the pending value; where it gets nothing, the next step is `send(None)`.

The runs are those of a coroutine task, with the object in place of the value that it gives. What
the coroutine is resumed with is the outcome of the object exactly where the object has completed
with a value, or was the argument of the callback and has an `exception` that returns
(`resumed_with_outcome_iff`). A run that finds the cancellation token set ends the coroutine and
does not resume it.
-/

namespace Hypertile

open Machine Machine.Threads

variable {V E : Type}

/-! ## The wake callback -/

/-- The exception of an outcome. -/
def outcomeException : Except E V → Option E
  | .ok _ => none
  | .error err => some err

/-- An object that is done: `result()` returns or raises its outcome, and `exception()` raises or
returns the exception of this outcome. -/
structure Awaited (V E : Type) where
  result : Except E V
  exception : Except E (Option E)
  faithful : ∀ exc, exception = .ok exc → exc = outcomeException result

namespace Awaited

/-- A future of asyncio that was not cancelled, or one of `concurrent.futures`. -/
def future (outcome : Except E V) : Awaited V E where
  result := outcome
  exception := .ok (outcomeException outcome)
  faithful := by rintro _ ⟨⟩; rfl

/-- An object whose `exception` raises: a cancelled future, and a task of the bindings, which has no
such method. -/
def raising (outcome : Except E V) (err : E) : Awaited V E where
  result := outcome
  exception := .error err
  faithful := nofun

end Awaited

/-- How an object calls the callback. -/
inductive Convention where
  | withFuture
  | withoutArgument
  deriving DecidableEq

/-- What the wake callback stores as the pending value, if anything, with the argument it is called
with and the object that the coroutine has yielded. -/
def wakeValue (arg : Option (Awaited V E)) (yielded : Awaited V E) : Option (Except E V) :=
  match arg with
  | some fut =>
    match fut.exception with
    | .ok (some exc) => some (.error exc)
    | .ok none =>
      match fut.result with
      | .ok res => some (.ok res)
      | .error _ => none
    | .error _ =>
      match fut.result with
      | .ok res => some (.ok res)
      | .error _ => none
  | none =>
    match yielded.result with
    | .ok res => some (.ok res)
    | .error _ => none

/-- A call of the wake callback: the object that the coroutine has yielded, and how it calls. -/
structure Wake (V E : Type) where
  object : Awaited V E
  convention : Convention

namespace Wake

/-- The argument of the call. -/
def arg (w : Wake V E) : Option (Awaited V E) :=
  match w.convention with
  | .withFuture => some w.object
  | .withoutArgument => none

/-- What the call stores, if anything. -/
def value (w : Wake V E) : Option (Except E V) := wakeValue w.arg w.object

/-- The object has a value to give, or it is the argument and its `exception` returns. -/
def Told (w : Wake V E) : Prop :=
  (∃ v, w.object.result = .ok v) ∨
    w.convention = .withFuture ∧ ∃ exc, w.object.exception = .ok exc

/-- The call stores the outcome of the object where the object tells it, and nothing elsewhere. -/
theorem value_cases (w : Wake V E) :
    w.Told ∧ w.value = some w.object.result ∨ ¬ w.Told ∧ w.value = none := by
  obtain ⟨⟨result, exception, faithful⟩, convention⟩ := w
  cases convention with
  | withoutArgument =>
    cases result with
    | ok v => simp [value, arg, wakeValue, Told]
    | error err => simp [value, arg, wakeValue, Told]
  | withFuture =>
    cases exception with
    | error err =>
      cases result with
      | ok v => simp [value, arg, wakeValue, Told]
      | error err => simp [value, arg, wakeValue, Told]
    | ok exc =>
      obtain rfl := faithful exc rfl
      cases result with
      | ok v => simp [value, arg, wakeValue, Told, outcomeException]
      | error err => simp [value, arg, wakeValue, Told, outcomeException]

/-- The call stores the outcome of the object exactly where the object tells it. -/
theorem value_eq_iff (w : Wake V E) : w.value = some w.object.result ↔ w.Told := by
  rcases w.value_cases with ⟨htold, hvalue⟩ | ⟨htold, hvalue⟩
  · exact iff_of_true hvalue htold
  · rw [hvalue]
    exact iff_of_false nofun htold

end Wake

/-! ## The runs -/

/-- A coroutine task, with the call of the wake callback that the coroutine was not stepped after
yet. -/
structure ResumeShared (V E : Type) where
  task : CoroTask V E
  woken : Option (Wake V E)

/-- A thread, and the call of the wake callback that its last step of the coroutine came after. -/
structure ResumeThread (V E : Type) where
  pc : CoroPc V E
  after : Option (Wake V E)

/-- What is chosen for a thread: the object and its convention in a wake callback, or another action
of the coroutine task. -/
inductive ResumeAct (V E : Type) where
  | resolve (wake : Wake V E)
  | act (a : CoroAct V E)

/-- The thread takes the pending value. -/
def CoroPc.takes : CoroPc V E → Bool
  | .takeInput => true
  | _ => false

/-- A step of a thread. -/
def resumeStep (s : ResumeShared V E) (l : ResumeThread V E) :
    ResumeAct V E → Option (ResumeShared V E × ResumeThread V E)
  | .resolve wake => (coroStep s.task l.pc (.resolve wake.value)).map fun r =>
      (⟨r.1, some wake⟩, ⟨r.2, l.after⟩)
  | .act (.resolve _) => none
  | .act a => (coroStep s.task l.pc a).map fun r =>
      if l.pc.takes then (⟨r.1, none⟩, ⟨r.2, s.woken⟩) else (⟨r.1, s.woken⟩, ⟨r.2, l.after⟩)

/-- A task that has just been spawned, and the threads `ι`. -/
def resumeStart (V E ι : Type) : Config (ResumeShared V E) (ResumeThread V E) ι :=
  ⟨⟨.new, none⟩, fun _ => ⟨.idle, none⟩⟩

/-- All interleavings of runs, wake callbacks and cancellation. -/
def resumeMachine (V E ι : Type) [DecidableEq ι] :
    Machine (Config (ResumeShared V E) (ResumeThread V E) ι) (ι × ResumeAct V E) :=
  .threads (fun _ => resumeStep) (resumeStart V E ι)

/-- The configurations of a task and the calls of its wake callbacks. -/
abbrev ResumeConfig (V E ι : Type) := Config (ResumeShared V E) (ResumeThread V E) ι

section
variable {ι : Type}

/-- A coroutine that is stepped after an object has called the wake callback is stepped with the
outcome of the object: `send` of its value or `throw` of its exception. Otherwise it is stepped with
`send(None)`. -/
def ResumedWithOutcome (c : ResumeConfig V E ι) : Prop :=
  ∀ i input, (c.loc i).pc = .stepping input →
    input = (c.loc i).after.map fun wake => wake.object.result

/-- Where the coroutine is about to be stepped after a call of the wake callback, the object has
told its outcome. -/
def wokenTold (c : ResumeConfig V E ι) (a : ι × ResumeAct V E) : Prop :=
  (c.loc a.1).pc = .takeInput → ∀ wake, c.shared.woken = some wake → wake.Told

/-- The task and the threads, without the calls of the wake callbacks. -/
def coroConfig (c : ResumeConfig V E ι) : CoroConfig V E ι :=
  c.map ResumeShared.task ResumeThread.pc

end

/-- The thread is on the way to a wake callback that has not asked its object. -/
def CoroPc.hooks : CoroPc V E → Bool
  | .stepping _ | .hooking _ | .fired => true
  | _ => false

/-! ## The steps -/

/-- `ResumeTrans s l s' l'`: a thread at `l` can take a step from `s`, to `s'` and `l'`. -/
inductive ResumeTrans (s : ResumeShared V E) (l : ResumeThread V E) :
    ResumeShared V E → ResumeThread V E → Prop
  | resolve {wake : Wake V E} (hpc : l.pc = .fired) :
      ResumeTrans s l
        ⟨{ s.task with pendingValue := wake.value.orElse fun _ => s.task.pendingValue }, some wake⟩
        ⟨.injecting, l.after⟩
  | take (hpc : l.pc = .takeInput) :
      ResumeTrans s l ⟨{ s.task with pendingValue := none }, none⟩
        ⟨.stepping s.task.pendingValue, s.woken⟩
  | other {t' : CoroTask V E} {m' : CoroPc V E} (h : CoroTrans s.task l.pc t' m')
      (hpc : l.pc ≠ .takeInput) (hpending : t'.pendingValue = s.task.pendingValue)
      (hm : ∀ input, m' ≠ .stepping input) : ResumeTrans s l ⟨t', s.woken⟩ ⟨m', l.after⟩

section
variable {s s' : ResumeShared V E} {l l' : ResumeThread V E} {a : ResumeAct V E}

/-- A step of the coroutine task that neither resolves nor takes the pending value keeps it. -/
theorem CoroTrans.pending {t t' : CoroTask V E} {m m' : CoroPc V E} (h : CoroTrans t m t' m')
    (htake : m ≠ .takeInput) (hfired : m ≠ .fired) :
    t'.pendingValue = t.pendingValue ∧ ∀ input, m' ≠ .stepping input := by
  cases h with
  | take => exact absurd rfl htake
  | resolve => exact absurd rfl hfired
  | _ => exact ⟨rfl, nofun⟩

/-- Only a thread that was called back resolves. -/
theorem coroStep_resolve {t t' : CoroTask V E} {m m' : CoroPc V E} {value : Option (Except E V)}
    (h : coroStep t m (.resolve value) = some (t', m')) : m = .fired ∧ m' = .injecting ∧
      t' = { t with pendingValue := value.orElse fun _ => t.pendingValue } := by
  cases m with
  | fired => cases h; exact ⟨rfl, rfl, rfl⟩
  | _ => cases h

/-- A thread that was called back resolves. -/
theorem coroStep_fired {t t' : CoroTask V E} {m' : CoroPc V E} {a : CoroAct V E}
    (h : coroStep t .fired a = some (t', m')) : ∃ value, a = .resolve value := by
  cases a with
  | resolve value => exact ⟨value, rfl⟩
  | _ => cases h

/-- A step is one of these. -/
theorem resumeStep_trans (h : resumeStep s l a = some (s', l')) : ResumeTrans s l s' l' := by
  unfold resumeStep at h
  split at h
  · obtain ⟨⟨t', m'⟩, hstep, he⟩ := Option.map_eq_some_iff.1 h
    cases he
    obtain ⟨hpc, rfl, rfl⟩ := coroStep_resolve hstep
    exact .resolve hpc
  · cases h
  · next a hresolve =>
    obtain ⟨⟨t', m'⟩, hstep, he⟩ := Option.map_eq_some_iff.1 h
    have ht := coroStep_trans hstep
    split at he
    · next htakes =>
      cases he
      have hpc : l.pc = .takeInput := by
        generalize l.pc = m at htakes
        cases m with
        | takeInput => rfl
        | _ => cases htakes
      rw [hpc] at ht
      cases ht with
      | take => exact .take hpc
      | ends hm => rcases hm with h | ⟨_, h⟩ | ⟨_, h⟩ <;> cases h
    · next htakes =>
      cases he
      have hpc : l.pc ≠ .takeInput := fun hpc => htakes (by rw [hpc]; rfl)
      have hfired : l.pc ≠ .fired := by
        intro hpc
        rw [hpc] at hstep
        obtain ⟨value, rfl⟩ := coroStep_fired hstep
        exact hresolve value rfl
      obtain ⟨hpending, hm⟩ := ht.pending hpc hfired
      exact .other ht hpc hpending hm

/-- A step that does not take the pending value sets no thread on the way to a wake callback, where
none is. -/
theorem CoroTrans.hooks {t t' : CoroTask V E} {m m' : CoroPc V E} (h : CoroTrans t m t' m')
    (htake : m ≠ .takeInput) (hhooks : t.hooks = 0) (hm : m.hooks = false) :
    t'.hooks = 0 ∧ m'.hooks = false := by
  cases h with
  | take => exact absurd rfl htake
  | fire hh => omega
  | yieldHook | accept => cases hm
  | _ => exact ⟨hhooks, rfl⟩

/-- A step is one of the coroutine task. -/
theorem ResumeTrans.coro (h : ResumeTrans s l s' l') : CoroTrans s.task l.pc s'.task l'.pc := by
  cases h with
  | resolve hpc => exact hpc ▸ .resolve
  | take hpc => exact hpc ▸ .take
  | other ht => exact ht

end

/-! ## What holds of every run -/

section
variable {ι : Type} [DecidableEq ι] [Fintype ι] {c : ResumeConfig V E ι} {s' : ResumeShared V E}
  {l' : ResumeThread V E} {i : ι}

/-- What holds of every run: the pending value is what the last wake callback has stored, and while
the coroutine was not stepped after it no other is on its way. -/
structure ResumeInv (c : ResumeConfig V E ι) : Prop where
  coro : CoroInv (coroConfig c)
  pending : c.shared.task.pendingValue = c.shared.woken.bind Wake.value
  alone : c.shared.woken.isSome →
    c.shared.task.hooks = 0 ∧ ∀ i, (c.loc i).pc.hooks = false

omit [DecidableEq ι] in
/-- The invariant holds at the start. -/
theorem ResumeInv.init : ResumeInv (resumeStart V E ι) := ⟨CoroInv.init, rfl, nofun⟩

omit [DecidableEq ι] [Fintype ι] in
/-- A thread that is on the way to a wake callback is a continuation. -/
theorem CoroPc.continues_of_hooks {m : CoroPc V E} (h : m.hooks = true) : m.continues = 1 := by
  cases m with
  | stepping | hooking | fired => rfl
  | _ => cases h

/-- Beside a thread that is about to inject the task there is no other continuation. -/
theorem CoroInv.alone {d : CoroConfig V E ι} (hI : CoroInv d) (hi : d.loc i = .injecting) :
    d.shared.hooks = 0 ∧ ∀ j, (d.loc j).hooks = false := by
  have hone := hI.one
  have hcont : (d.loc i).continues = 1 := by rw [hi]; rfl
  constructor
  · have hle := le_total CoroTask.waiting CoroPc.continues d i
    have hw : d.shared.waiting = 0 := by omega
    exact (Nat.add_eq_zero_iff.1 hw).2
  · intro j
    refine Bool.eq_false_iff.2 fun hj => ?_
    have hji : i = j := by
      refine holder_unique hone (i := i) (j := j) ?_ ?_
      · rw [hcont]
        exact Nat.one_pos
      · rw [CoroPc.continues_of_hooks hj]
        exact Nat.one_pos
    rw [← hji, hi] at hj
    cases hj

/-- A step keeps the invariant. -/
theorem ResumeInv.step (hI : ResumeInv c) (h : ResumeTrans c.shared (c.loc i) s' l') :
    ResumeInv ⟨s', Function.update c.loc i l'⟩ := by
  have hcoro : CoroInv (coroConfig ⟨s', Function.update c.loc i l'⟩) := by
    rw [coroConfig, map_update]
    exact hI.coro.step (f := fun j => (c.loc j).pc) h.coro
  refine ⟨hcoro, ?_, ?_⟩
  · cases h with
    | @resolve wake hpc =>
      have hnone : c.shared.woken = none := by
        by_contra hsome
        have hhooks := (hI.alone (Option.isSome_iff_ne_none.2 hsome)).2 i
        rw [hpc] at hhooks
        cases hhooks
      have hpending := hI.pending
      rw [hnone] at hpending
      change (wake.value.orElse fun _ => c.shared.task.pendingValue) = wake.value
      rw [hpending]
      cases wake.value with
      | none => rfl
      | some value => rfl
    | take => rfl
    | other _ _ hpending => exact hpending.trans hI.pending
  · intro hsome
    cases h with
    | resolve hpc =>
      have halone := hcoro.alone (i := i) (by simp [coroConfig, Config.map])
      exact halone
    | take => cases hsome
    | other ht hpc =>
      obtain ⟨hhooks, hothers⟩ := hI.alone hsome
      obtain ⟨hhooks', hown⟩ := ht.hooks hpc hhooks (hothers i)
      exact ⟨hhooks', (Function.forall_update_iff c.loc fun _ l => l.pc.hooks = false).2
        ⟨hown, fun j _ => hothers j⟩⟩

/-- A step keeps a coroutine that is resumed with the outcomes of what it awaited exactly where, if
the coroutine is about to be stepped after a wake callback, the object has told its outcome. -/
theorem ResumeInv.step_resumed (hI : ResumeInv c) (hP : ResumedWithOutcome c) {a : ResumeAct V E}
    (h : ResumeTrans c.shared (c.loc i) s' l') :
    ResumedWithOutcome ⟨s', Function.update c.loc i l'⟩ ↔ wokenTold c (i, a) := by
  -- the other threads stay as they are, so the thread that moves decides
  have hown : ResumedWithOutcome ⟨s', Function.update c.loc i l'⟩ ↔
      ∀ input, l'.pc = .stepping input → input = l'.after.map fun wake => wake.object.result :=
    (Function.forall_update_iff c.loc fun _ l => ∀ input, l.pc = .stepping input →
      input = l.after.map fun wake => wake.object.result).trans (and_iff_left fun j _ => hP j)
  rw [hown]
  cases h with
  | resolve hpc =>
    refine iff_of_true nofun fun htake => ?_
    rw [hpc] at htake
    cases htake
  | other _ hpc _ hm => exact iff_of_true (fun input h => absurd h (hm input)) fun h => absurd h hpc
  | take hpc =>
    have hiff : (∀ input, CoroPc.stepping c.shared.task.pendingValue = .stepping input →
        input = c.shared.woken.map fun wake => wake.object.result) ↔
        c.shared.woken.bind Wake.value = c.shared.woken.map fun wake => wake.object.result := by
      rw [← hI.pending]
      constructor
      · intro h
        exact h _ rfl
      · rintro h _ ⟨⟩
        exact h
    refine hiff.trans ?_
    simp only [wokenTold, hpc, true_imp_iff]
    cases c.shared.woken with
    | none => exact iff_of_true rfl nofun
    | some wake =>
      constructor
      · rintro h _ ⟨⟩
        exact wake.value_eq_iff.1 h
      · intro h
        exact wake.value_eq_iff.2 (h wake rfl)

end

/-- Along a run of a coroutine task, the coroutine is resumed with the outcome of what it awaited in
all states if and only if, in each step after a wake callback, the object has told its outcome to
the callback: it has completed with a value, or it was the argument and its `exception` returned. -/
theorem resumed_with_outcome_iff (V E ι : Type) [DecidableEq ι] [Fintype ι]
    (as : List (ι × ResumeAct V E)) :
    (resumeMachine V E ι).AllStates ResumedWithOutcome (resumeStart V E ι) as ↔
      (resumeMachine V E ι).AllSteps wokenTold (resumeStart V E ι) as := by
  refine allStates_iff_allSteps (I := ResumeInv) ?_ ?_ .init fun _ _ => nofun
  · rintro c ⟨i, a⟩ c' hI hst
    obtain ⟨s', l', hp, rfl⟩ := step_iff.1 hst
    exact hI.step (resumeStep_trans hp)
  · rintro c ⟨i, a⟩ c' hI hP hst
    obtain ⟨s', l', hp, rfl⟩ := step_iff.1 hst
    exact hI.step_resumed hP (resumeStep_trans hp)

/-- A coroutine awaits a callable task that fails, which calls the wake callback without an
argument; the coroutine is then stepped again. -/
def failedTaskRun : List (Bool × ResumeAct ℕ String) :=
  [(false, .act .run), (false, .act .go), (false, .act .go), (false, .act .go), (false, .act .go),
    (false, .act (.stepped (.yieldedHook "CallableTask"))), (false, .act .accept),
    (false, .act .go), (false, .act .go), (true, .act .fire),
    (true, .resolve ⟨.raising (.error "ValueError") "AttributeError", .withoutArgument⟩),
    (true, .act .go), (true, .act .run), (true, .act .go), (true, .act .go), (true, .act .go),
    (true, .act .go)]

/-- In that run it is stepped with `send(None)`. -/
theorem failure_resumed_with_none :
    ∃ c, (resumeMachine ℕ String Bool).run (resumeStart ℕ String Bool) failedTaskRun = some c ∧
      (c.loc true).pc = .stepping none ∧
      (∃ wake, (c.loc true).after = some wake ∧ wake.object.result = .error "ValueError") ∧
      ¬ ResumedWithOutcome c := by
  refine ⟨_, rfl, rfl, ⟨_, rfl, rfl⟩, fun h => ?_⟩
  cases h true none rfl

end Hypertile
