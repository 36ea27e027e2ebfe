import Hypertile.Coroutine.Core

/-!
# A coroutine goes on once and ends once

A queued handle, a registered wake callback, one that is on its way and a call of `run` that has not
armed the task again are continuations of the coroutine. Each step turns one of them into another,
or ends the coroutine and drops the one that there is, except for a `throw` of the cancellation
branch that panics: it drops the continuation and the coroutine has not ended (`CoroTrans.balance`).
A run in which this never happens has one continuation until the coroutine ends, and then one call
of the done callback (`coroutine_finishes_once_iff`).
-/

namespace Hypertile

open Machine Machine.Threads

variable {V E : Type}

/-! ## The steps -/

/-- `CoroTrans s m s' m'`: a thread at `m` can take a step from `s`, to `s'` and `m'`. -/
inductive CoroTrans (s : CoroTask V E) : CoroPc V E → CoroTask V E → CoroPc V E → Prop
  | pop (hq : 0 < s.queued) : CoroTrans s .idle { s with queued := s.queued - 1 } .locking
  | fire (hh : 0 < s.hooks) : CoroTrans s .idle { s with hooks := s.hooks - 1 } .fired
  | cancel : CoroTrans s .idle { s with token := true } .idle
  | lock (hfree : s.locked = false) : CoroTrans s .locking { s with locked := true } .entered
  | enter : CoroTrans s .entered s .checkToken
  | enterDead (hdead : s.coro = false) : CoroTrans s .entered s .release
  | cancelled : CoroTrans s .checkToken s .throwing
  | notCancelled : CoroTrans s .checkToken s .takeInput
  | throwPanicked : CoroTrans s .throwing { s with locked := false } .unwound
  | take : CoroTrans s .takeInput { s with pendingValue := none } (.stepping s.pendingValue)
  /-- The coroutine ends, by a step, by cancellation or at an awaitable that refuses. -/
  | ends {m : CoroPc V E} {outcome : Except (CoroErr E) V}
      (hm : m = .throwing ∨ (∃ input, m = .stepping input) ∨ ∃ typeName, m = .hooking typeName) :
      CoroTrans s m { s with ended := some outcome } (.ending outcome)
  | yieldNone {input : Option (Except E V)} : CoroTrans s (.stepping input) s .requeue
  | yieldHook {input : Option (Except E V)} {typeName : String} :
      CoroTrans s (.stepping input) s (.hooking typeName)
  | accept {typeName : String} :
      CoroTrans s (.hooking typeName) { s with hooks := s.hooks + 1 } .hooked
  | hooked : CoroTrans s .hooked s .release
  | requeue : CoroTrans s .requeue { s with queued := s.queued + 1 } .release
  | empty {outcome : Except (CoroErr E) V} :
      CoroTrans s (.ending outcome) { s with coro := false } (.notify outcome)
  | notify {outcome : Except (CoroErr E) V} (hcb : s.doneCallback = true) :
      CoroTrans s (.notify outcome)
        { s with doneCallback := false, calls := outcome :: s.calls } .calling
  | notifyNone {outcome : Except (CoroErr E) V} (hcb : s.doneCallback = false) :
      CoroTrans s (.notify outcome) s .release
  | called : CoroTrans s .calling s .release
  | release : CoroTrans s .release { s with locked := false } .idle
  | resolve {value : Option (Except E V)} :
      CoroTrans s .fired { s with pendingValue := value } .injecting
  | inject : CoroTrans s .injecting { s with queued := s.queued + 1 } .idle

section
variable {s s' : CoroTask V E} {m m' : CoroPc V E} {a : CoroAct V E}

/-- What a step of `run` can do. -/
theorem coroRunStep_trans (h : coroRunStep s m a = some (s', m')) : CoroTrans s m s' m' := by
  unfold coroRunStep at h
  split at h
  · simp only [Option.some.injEq, Prod.mk.injEq] at h
    obtain ⟨rfl, rfl⟩ := h
    split
    · exact .enter
    · next hdead => exact .enterDead (Bool.eq_false_iff.2 hdead)
  · simp only [Option.some.injEq, Prod.mk.injEq] at h
    obtain ⟨rfl, rfl⟩ := h
    split
    · exact .cancelled
    · exact .notCancelled
  · cases h; exact .ends (.inl rfl)
  · cases h; exact .throwPanicked
  · cases h; exact .take
  · cases h; exact .yieldNone
  · cases h; exact .yieldHook
  · obtain ⟨outcome, -, he⟩ := Option.map_eq_some_iff.1 h
    cases he
    exact .ends (.inr (.inl ⟨_, rfl⟩))
  · cases h; exact .accept
  · cases h; exact .ends (.inr (.inr ⟨_, rfl⟩))
  · cases h; exact .hooked
  · cases h; exact .requeue
  · cases h; exact .empty
  · split at h
    · next hcb => cases h; exact .notify hcb
    · next hcb => cases h; exact .notifyNone (Bool.eq_false_iff.2 hcb)
  · cases h; exact .called
  · cases h; exact .release
  · cases h

/-- What a step can do. -/
theorem coroStep_trans (h : coroStep s m a = some (s', m')) : CoroTrans s m s' m' := by
  unfold coroStep at h
  split at h
  · split at h
    · next hq => cases h; exact .pop hq
    · cases h
  · split at h
    · next hh => cases h; exact .fire hh
    · cases h
  · cases h; exact .cancel
  · split at h
    · cases h
    · next hfree => cases h; exact .lock (Bool.eq_false_iff.2 hfree)
  · cases h; exact .resolve
  · cases h; exact .inject
  · exact coroRunStep_trans h

end

/-! ## The continuations of a coroutine -/

/-- The handles that are queued and the callbacks that are registered. -/
def CoroTask.waiting (s : CoroTask V E) : ℕ := s.queued + s.hooks

namespace CoroPc

/-- The thread is in a call of `run` that has not armed the task again and not ended the coroutine,
or in a wake callback that has not injected it. -/
def continues : CoroPc V E → ℕ
  | .locking | .entered | .checkToken | .takeInput | .throwing | .stepping _ | .hooking _ | .requeue
  | .fired | .injecting => 1
  | _ => 0

/-- The thread is about to tell the done callback how the coroutine has ended. -/
def ends : CoroPc V E → Option (Except (CoroErr E) V)
  | .ending outcome | .notify outcome => some outcome
  | _ => none

/-- How many calls of the done callback the thread is about to make. -/
def owes (m : CoroPc V E) : ℕ := if m.ends.isSome then 1 else 0

/-- The thread steps the coroutine. -/
def steps : CoroPc V E → Bool
  | .throwing | .stepping _ => true
  | _ => false

/-- A thread that steps the coroutine is a continuation of it. -/
theorem continues_of_steps {m : CoroPc V E} (h : m.steps = true) : m.continues = 1 := by
  cases m with
  | throwing | stepping => rfl
  | _ => cases h

end CoroPc

section
variable {s s' : CoroTask V E} {m m' : CoroPc V E}

/-- A step keeps the continuations, or ends the coroutine by one of them, or loses one to a panic of
`throw`, or finds the slot of an ended coroutine. -/
theorem CoroTrans.balance (h : CoroTrans s m s' m') :
    (s'.waiting + m'.continues = s.waiting + m.continues ∧ s'.ended = s.ended ∨
      s'.waiting + m'.continues + 1 = s.waiting + m.continues ∧
        ∃ outcome, s'.ended = some outcome ∧ m' = .ending outcome) ∨
    s'.waiting + m'.continues + 1 = s.waiting + m.continues ∧ s'.ended = s.ended ∧
      (m = .throwing ∧ m' = .unwound ∨ m = .entered ∧ s.coro = false) := by
  cases h with
  | pop hq =>
    refine .inl (.inl ⟨?_, rfl⟩)
    simp only [CoroTask.waiting, CoroPc.continues]
    omega
  | fire hh =>
    refine .inl (.inl ⟨?_, rfl⟩)
    simp only [CoroTask.waiting, CoroPc.continues]
    omega
  | accept | requeue | inject =>
    refine .inl (.inl ⟨?_, rfl⟩)
    simp only [CoroTask.waiting, CoroPc.continues]
    omega
  | enterDead hdead => exact .inr ⟨rfl, rfl, .inr ⟨rfl, hdead⟩⟩
  | throwPanicked => exact .inr ⟨rfl, rfl, .inl ⟨rfl, rfl⟩⟩
  | ends hm =>
    refine .inl (.inr ⟨?_, _, rfl, rfl⟩)
    rcases hm with rfl | ⟨input, rfl⟩ | ⟨typeName, rfl⟩ <;> rfl
  | _ => exact .inl (.inl ⟨rfl, rfl⟩)

/-- A step calls the done callback if the thread was about to, and the thread is about to if the
step ends the coroutine. -/
theorem CoroTrans.told (h : CoroTrans s m s' m') (hcb : s.doneCallback = false → s.calls ≠ []) :
    (s'.calls = s.calls ∧ m'.ends = m.ends ∧ s'.ended = s.ended ∧
        s'.doneCallback = s.doneCallback) ∨
      (s'.calls = s.calls ∧ m.ends = none ∧ m'.ends = s'.ended ∧ s'.ended.isSome ∧ m.continues = 1 ∧
        s'.doneCallback = s.doneCallback) ∨
      (∃ outcome, s'.calls = outcome :: s.calls ∧ m.ends = some outcome ∧ m'.ends = none ∧
        s'.ended = s.ended ∧ s'.doneCallback = false) ∨
      (m.ends.isSome ∧ s.calls ≠ []) := by
  cases h with
  | ends hm =>
    refine .inr (.inl ⟨rfl, ?_, rfl, rfl, ?_, rfl⟩)
    · rcases hm with rfl | ⟨input, rfl⟩ | ⟨typeName, rfl⟩ <;> rfl
    · rcases hm with rfl | ⟨input, rfl⟩ | ⟨typeName, rfl⟩ <;> rfl
  | notify => exact .inr (.inr (.inl ⟨_, rfl, rfl, rfl, rfl, rfl⟩))
  | notifyNone hno => exact .inr (.inr (.inr ⟨rfl, hcb hno⟩))
  | _ => exact .inl ⟨rfl, rfl, rfl, rfl⟩

/-- The slot is emptied by a thread that is about to tell how the coroutine has ended. -/
theorem CoroTrans.coro (h : CoroTrans s m s' m') (hdead : s'.coro = false) :
    s.coro = false ∨ m.ends.isSome := by
  cases h with
  | empty => exact .inr rfl
  | _ => exact .inl hdead

end

/-! ## What holds of every run -/

variable {ι : Type} [DecidableEq ι] [Fintype ι]

/-- The configurations of a task. -/
abbrev CoroConfig (V E ι : Type) := Config (CoroTask V E) (CoroPc V E) ι

/-- How many calls of the done callback were made. -/
def CoroTask.told (s : CoroTask V E) : ℕ := s.calls.length

/-- What holds of every run: there is at most one continuation and none of a coroutine that has
ended, and a coroutine that has ended has one call of the done callback, made or owed. -/
structure CoroInv (c : CoroConfig V E ι) : Prop where
  one : total CoroTask.waiting CoroPc.continues c ≤ 1
  concluded : c.shared.ended.isSome → total CoroTask.waiting CoroPc.continues c = 0
  alive : c.shared.ended = none → c.shared.coro = true
  told : total CoroTask.told CoroPc.owes c = if c.shared.ended.isSome then 1 else 0
  owed : ∀ i, (c.loc i).ends.isSome → (c.loc i).ends = c.shared.ended
  calls : ∀ outcome ∈ c.shared.calls, c.shared.ended = some outcome
  callback : c.shared.doneCallback = false → c.shared.calls ≠ []

/-- The task of a coroutine that finishes once: while the coroutine has not ended it has one
continuation, it is stepped by one thread at a time and not after it has ended, and the done
callback is called at most once, with the outcome of the coroutine; where the coroutine has ended,
the callback was called or a thread in `run` is about to call it. -/
structure FinishesOnce (c : CoroConfig V E ι) : Prop where
  continuation : c.shared.ended = none →
    c.shared.queued + c.shared.hooks + ∑ i, (c.loc i).continues = 1
  alone : ∀ i j, (c.loc i).steps = true → (c.loc j).steps = true → i = j
  alive : ∀ i, (c.loc i).steps = true → c.shared.ended = none
  once : c.shared.calls.length ≤ 1
  outcome : ∀ outcome ∈ c.shared.calls, c.shared.ended = some outcome
  called : ∀ outcome, c.shared.ended = some outcome →
    c.shared.calls = [outcome] ∨ ∃ i, (c.loc i).ends = some outcome

/-- No `throw` of the cancellation branch panics. -/
def throwsCalmly (c : CoroConfig V E ι) (a : ι × CoroAct V E) : Prop :=
  c.loc a.1 = .throwing → ∀ payload, a.2 ≠ .throwPanicked payload

section
variable {s s' : CoroTask V E} {f : ι → CoroPc V E} {i : ι} {m' : CoroPc V E} {c : CoroConfig V E ι}

/-- A thread that is about to call the done callback finds that nobody has called it. -/
theorem CoroInv.calls_of_owes (hI : CoroInv c) (hi : (c.loc i).ends.isSome) :
    c.shared.calls = [] ∧ c.shared.ended.isSome := by
  have hle := le_total CoroTask.told CoroPc.owes c i
  rw [hI.told, CoroPc.owes, if_pos hi] at hle
  split at hle
  · next hended =>
    exact ⟨List.length_eq_zero_iff.1 (by simpa [CoroTask.told] using hle), hended⟩
  · omega

omit [DecidableEq ι] in
/-- The invariant holds at the start. -/
theorem CoroInv.init : CoroInv (coroStart V E ι) where
  one := by simp [total, coroStart, CoroTask.new, CoroTask.waiting, CoroPc.continues]
  concluded := nofun
  alive _ := rfl
  told := by simp [total, coroStart, CoroTask.new, CoroTask.told, CoroPc.owes, CoroPc.ends]
  owed _ := nofun
  calls := nofun
  callback := nofun

/-- A thread that is a continuation has a coroutine that has not ended. -/
theorem CoroInv.ended_of_continues (hI : CoroInv c) (hi : (c.loc i).continues = 1) :
    c.shared.ended = none := by
  by_contra hended
  have hover := hI.concluded (Option.isSome_iff_ne_none.2 hended)
  have hle := le_total CoroTask.waiting CoroPc.continues c i
  omega

/-- A step keeps the outcome of a coroutine that has ended. -/
theorem CoroInv.ended_step (hI : CoroInv ⟨s, f⟩) (h : CoroTrans s (f i) s' m')
    (hended : s.ended.isSome) : s'.ended = s.ended := by
  rcases h.told hI.callback with ⟨-, -, heq, -⟩ | ⟨-, -, -, -, hcont, -⟩ | ⟨_, -, -, -, heq, -⟩ |
    ⟨howes, hcalls⟩
  · exact heq
  · have hnone : s.ended = none := hI.ended_of_continues (i := i) hcont
    rw [hnone] at hended
    cases hended
  · exact heq
  · exact absurd (hI.calls_of_owes (i := i) howes).1 hcalls

/-- How the number of continuations changes with a step. -/
theorem CoroTrans.total_continues (h : CoroTrans s (f i) s' m') :
    (total CoroTask.waiting CoroPc.continues ⟨s', Function.update f i m'⟩ =
        total CoroTask.waiting CoroPc.continues ⟨s, f⟩ ∧ s'.ended = s.ended ∨
      total CoroTask.waiting CoroPc.continues ⟨s', Function.update f i m'⟩ + 1 =
        total CoroTask.waiting CoroPc.continues ⟨s, f⟩ ∧ s'.ended.isSome) ∨
    total CoroTask.waiting CoroPc.continues ⟨s', Function.update f i m'⟩ + 1 =
        total CoroTask.waiting CoroPc.continues ⟨s, f⟩ ∧ s'.ended = s.ended ∧
      (f i = .throwing ∧ m' = .unwound ∨ f i = .entered ∧ s.coro = false) := by
  rw [total_update, total_split CoroTask.waiting CoroPc.continues ⟨s, f⟩ i]
  rcases h.balance with (⟨heq, hended⟩ | ⟨heq, outcome, hended, -⟩) | ⟨heq, hended, hwhy⟩
  · exact .inl (.inl ⟨congrArg (· + _) heq, hended⟩)
  · refine .inl (.inr ⟨?_, by rw [hended]; rfl⟩)
    rw [add_right_comm]
    exact congrArg (· + _) heq
  · refine .inr ⟨?_, hended, hwhy⟩
    rw [add_right_comm]
    exact congrArg (· + _) heq

/-- A step keeps the invariant. -/
theorem CoroInv.step (hI : CoroInv ⟨s, f⟩) (h : CoroTrans s (f i) s' m') :
    CoroInv ⟨s', Function.update f i m'⟩ := by
  have hkeep := hI.ended_step h
  have howes : (f i).ends.isSome → s.calls = [] ∧ s.ended.isSome :=
    fun hi => hI.calls_of_owes (i := i) hi
  have hone := hI.one
  have hover := hI.concluded
  refine ⟨?_, ?_, ?_, ?_, ?_, ?_, ?_⟩
  · rcases h.total_continues with (⟨heq, -⟩ | ⟨heq, -⟩) | ⟨heq, -, -⟩ <;> omega
  · intro hended
    rcases h.total_continues with (⟨heq, hsame⟩ | ⟨heq, -⟩) | ⟨heq, hsame, -⟩
    · rw [heq]
      exact hover (hsame ▸ hended)
    · omega
    · have hzero := hover (hsame ▸ hended)
      omega
  · intro hnone
    have hbefore : s.ended = none := by
      by_contra hended
      rw [hkeep (Option.isSome_iff_ne_none.2 hended)] at hnone
      exact hended hnone
    refine Bool.eq_true_of_not_eq_false fun hdead => ?_
    rcases h.coro hdead with hcoro | hends
    · rw [show s.coro = true from hI.alive hbefore] at hcoro
      cases hcoro
    · rw [hbefore] at howes
      cases (howes hends).2
  · have htold := hI.told
    rw [total_split CoroTask.told CoroPc.owes ⟨s, f⟩ i] at htold
    rw [total_update]
    change s.calls.length + (f i).owes + _ = _ at htold
    change s'.calls.length + m'.owes + _ = _
    rcases h.told hI.callback with ⟨hcalls, hends, hended, -⟩ |
      ⟨hcalls, hno, hends, hsome, hcont, -⟩ |
      ⟨outcome, hcalls, hends, hno, hended, -⟩ | ⟨hends, hcalls⟩
    · rw [hcalls, CoroPc.owes, hends, hended]
      exact htold
    · have hnone : s.ended = none := hI.ended_of_continues (i := i) hcont
      rw [hnone, CoroPc.owes, hno] at htold
      rw [hcalls, CoroPc.owes, hends, if_pos hsome]
      simp only [Option.isSome_none, Bool.false_eq_true, if_false] at htold
      omega
    · rw [CoroPc.owes, hends, Option.isSome_some, if_pos rfl] at htold
      rw [hcalls, CoroPc.owes, hno, hended, List.length_cons, Option.isSome_none, if_neg nofun]
      exact htold
    · exact absurd (howes hends).1 hcalls
  · intro j hj
    by_cases hji : j = i
    · subst hji
      simp only [Function.update_self] at hj ⊢
      rcases h.told hI.callback with ⟨-, hends, -⟩ | ⟨-, -, hends, -⟩ | ⟨_, -, -, hno, -⟩ |
        ⟨hends, hcalls⟩
      · rw [hends] at hj ⊢
        rw [hkeep (howes hj).2]
        exact hI.owed j hj
      · exact hends
      · rw [hno] at hj
        cases hj
      · exact absurd (howes hends).1 hcalls
    · simp only [Function.update_of_ne hji] at hj ⊢
      rw [hkeep (hI.calls_of_owes (i := j) hj).2]
      exact hI.owed j hj
  · intro outcome hmem
    have hold : outcome ∈ s.calls → s'.ended = some outcome := by
      intro hmem
      have hended : s.ended = some outcome := hI.calls outcome hmem
      rw [hkeep (by rw [hended]; rfl), hended]
    rcases h.told hI.callback with ⟨hcalls, -⟩ | ⟨hcalls, -⟩ | ⟨new, hcalls, hends, -, hended, -⟩ |
      ⟨hends, hcalls⟩
    · exact hold (hcalls ▸ hmem)
    · exact hold (hcalls ▸ hmem)
    · change outcome ∈ s'.calls at hmem
      rw [hcalls] at hmem
      rcases List.mem_cons.1 hmem with rfl | hmem
      · have hown : (f i).ends = s.ended := hI.owed i (by rw [hends]; rfl)
        rw [hended, ← hown, hends]
      · exact hold hmem
    · exact absurd (howes hends).1 hcalls
  · intro hcb
    change s'.doneCallback = false at hcb
    change s'.calls ≠ []
    rcases h.told hI.callback with ⟨hcalls, -, -, hsame⟩ | ⟨hcalls, -, -, -, -, hsame⟩ |
      ⟨_, hcalls, -⟩ | ⟨hends, hcalls⟩
    · rw [hcalls]
      exact hI.callback (hsame ▸ hcb)
    · rw [hcalls]
      exact hI.callback (hsame ▸ hcb)
    · rw [hcalls]
      exact List.cons_ne_nil _ _
    · exact absurd (howes hends).1 hcalls

/-- A coroutine of which the invariant holds and which has one continuation until it ends finishes
once. -/
theorem CoroInv.finishesOnce (hI : CoroInv c)
    (hone : c.shared.ended = none → total CoroTask.waiting CoroPc.continues c = 1) :
    FinishesOnce c where
  continuation := hone
  alone j k hj hk := by
    refine holder_unique hI.one (i := j) (j := k) ?_ ?_
    · rw [CoroPc.continues_of_steps hj]
      exact Nat.one_pos
    · rw [CoroPc.continues_of_steps hk]
      exact Nat.one_pos
  alive j hj := hI.ended_of_continues (CoroPc.continues_of_steps hj)
  once := by
    have hle : c.shared.told ≤ total CoroTask.told CoroPc.owes c := Nat.le_add_right ..
    rw [hI.told] at hle
    refine hle.trans ?_
    split
    · exact le_rfl
    · exact Nat.zero_le 1
  outcome := hI.calls
  called outcome hended := by
    have htold := hI.told
    rw [hended, Option.isSome_some, if_pos rfl] at htold
    rcases exists_holder (htold.symm ▸ Nat.one_pos) with hcalls | ⟨j, hj⟩
    · left
      have hlen : c.shared.calls.length = 1 := by
        have hle : c.shared.calls.length ≤ 1 := htold ▸ Nat.le_add_right ..
        exact le_antisymm hle hcalls
      obtain ⟨called, hcalled⟩ := List.length_eq_one_iff.1 hlen
      have hsame := hI.calls called (hcalled ▸ List.mem_singleton_self called)
      rw [hended] at hsame
      rw [hcalled, Option.some.inj hsame]
    · right
      have hends : (c.loc j).ends.isSome := by
        by_contra hno
        rw [CoroPc.owes, if_neg hno] at hj
        exact Nat.lt_irrefl 0 hj
      exact ⟨j, (hI.owed j hends).trans hended⟩

omit [DecidableEq ι] [Fintype ι] in
/-- A call of `run` that is left by a panic is left by one of `throw`. -/
theorem coroStep_unwound {a : CoroAct V E}
    (h : coroStep s .throwing a = some (s', .unwound)) : ∃ payload, a = .throwPanicked payload := by
  cases a with
  | throwPanicked payload => exact ⟨payload, rfl⟩
  | _ => cases h

/-- A step of a coroutine that finishes once keeps that exactly if it is no panic of `throw`. -/
theorem CoroInv.step_finishesOnce {c' : CoroConfig V E ι} {a : ι × CoroAct V E} (hI : CoroInv c)
    (hF : FinishesOnce c) (hst : (coroMachine V E ι).step c a = some c') :
    FinishesOnce c' ↔ throwsCalmly c a := by
  obtain ⟨i, a⟩ := a
  obtain ⟨s', m', hp, rfl⟩ := step_iff.1 hst
  have ht : CoroTrans c.shared (c.loc i) s' m' := coroStep_trans hp
  constructor
  · rintro hF' hthrow payload rfl
    change c.loc i = .throwing at hthrow
    have hnone : c.shared.ended = none :=
      hI.ended_of_continues (i := i) (by rw [hthrow]; rfl)
    change coroStep c.shared (c.loc i) (.throwPanicked payload) = _ at hp
    rw [hthrow] at hp
    cases hp
    have hone : total CoroTask.waiting CoroPc.continues c = 1 := hF.continuation hnone
    have hone' : total CoroTask.waiting CoroPc.continues
        ⟨{ c.shared with locked := false }, Function.update c.loc i .unwound⟩ = 1 :=
      hF'.continuation hnone
    rw [total_update] at hone'
    rw [total_split CoroTask.waiting CoroPc.continues c i, hthrow] at hone
    change c.shared.waiting + 0 + _ = 1 at hone'
    change c.shared.waiting + 1 + _ = 1 at hone
    omega
  · intro hcalm
    refine (hI.step (f := c.loc) ht).finishesOnce fun hnone => ?_
    rcases ht.total_continues (f := c.loc) with (⟨heq, hsame⟩ | ⟨-, hsome⟩) |
      ⟨-, hsame, ⟨hthrow, rfl⟩ | ⟨-, hdead⟩⟩
    · exact heq.trans (hF.continuation (hsame.symm.trans hnone))
    · change s'.ended = none at hnone
      rw [hnone] at hsome
      cases hsome
    · change coroStep c.shared (c.loc i) a = _ at hp
      rw [hthrow] at hp
      obtain ⟨payload, rfl⟩ := coroStep_unwound hp
      exact absurd rfl (hcalm hthrow payload)
    · rw [hI.alive (hsame.symm.trans hnone)] at hdead
      cases hdead

end

/-- Along a run of a coroutine task, the coroutine finishes once in all states if and only if no
`throw` of the cancellation branch panics. -/
theorem coroutine_finishes_once_iff (V E ι : Type) [DecidableEq ι] [Fintype ι]
    (as : List (ι × CoroAct V E)) :
    (coroMachine V E ι).AllStates FinishesOnce (coroStart V E ι) as ↔
      (coroMachine V E ι).AllSteps throwsCalmly (coroStart V E ι) as := by
  refine allStates_iff_allSteps (I := CoroInv) ?_ ?_ .init (CoroInv.init.finishesOnce fun _ => ?_)
  · rintro c ⟨i, a⟩ c' hI hst
    obtain ⟨s', m', hp, rfl⟩ := step_iff.1 hst
    exact hI.step (f := c.loc) (coroStep_trans hp)
  · exact fun c a c' hI hF hst => hI.step_finishesOnce hF hst
  · simp [total, coroStart, CoroTask.new, CoroTask.waiting, CoroPc.continues]

/-- The token is set before the coroutine is first run, and the `throw` panics. -/
def throwPanicRun : List (Unit × CoroAct Unit Unit) :=
  [((), .cancel), ((), .run), ((), .go), ((), .go), ((), .go), ((), .throwPanicked .other)]

/-- After that run the coroutine has not ended, no thread and no queue will go on with it, and its
done callback was not called. -/
theorem cancelled_coroutine_lost :
    ∃ c, (coroMachine Unit Unit Unit).run (coroStart Unit Unit Unit) throwPanicRun = some c ∧
      c.shared.ended = none ∧ c.shared.coro = true ∧ c.shared.calls = [] ∧
      c.shared.queued + c.shared.hooks + ∑ i, (c.loc i).continues = 0 ∧ ¬ FinishesOnce c := by
  have hzero : ∀ c : CoroConfig Unit Unit Unit, c.shared.queued = 0 → c.shared.hooks = 0 →
      (c.loc ()).continues = 0 →
        c.shared.queued + c.shared.hooks + ∑ i, (c.loc i).continues = 0 := by
    intro c hq hh hl
    rw [hq, hh, Fintype.sum_unique, zero_add, zero_add]
    exact hl
  refine ⟨_, rfl, rfl, rfl, rfl, hzero _ rfl rfl rfl, fun hF => ?_⟩
  have hone := hF.continuation rfl
  rw [hzero _ rfl rfl rfl] at hone
  cases hone

end Hypertile
