import Hypertile.Coroutine.Gil
import Hypertile.Machine.Ends

/-!
# A coroutine at rest

Where nothing is left to do for a coroutine task but to wait for a wake callback, the coroutine has
ended and its done callback was called once, with its outcome; or it waits for one object, which has
its wake callback and has not fired it; or a `throw` of the cancellation branch has panicked
(`coroutine_rests`).

Cancellation does not wake a coroutine, but once the token is set it is stepped once more at most,
by a thread that has looked at the token before; where there is none it is not stepped any more, and
ends by its cancellation if it ends (`cancelled_coroutine_stops`).
-/

namespace Hypertile

open Machine Machine.Threads

variable {V E : Type}

/-! ## Steps that are left to do -/

/-- A step that a thread takes of its own: no wake callback that fires, and no cancellation. -/
def CoroAct.own : CoroAct V E → Bool
  | .fire | .cancel => false
  | _ => true

/-- A thread in a call can go on, unless it waits for the lock of the coroutine. -/
theorem coroStep_enabled {s : CoroTask V E} {m : CoroPc V E} (hidle : m ≠ .idle)
    (hunwound : m ≠ .unwound) (hlock : m = .locking → s.locked = false) :
    ∃ a, a.own = true ∧ coroStep s m a ≠ none := by
  cases m with
  | idle => exact absurd rfl hidle
  | unwound => exact absurd rfl hunwound
  | locking => exact ⟨.go, rfl, by simp [coroStep, hlock rfl]⟩
  | throwing => exact ⟨.thrown, rfl, by simp [coroStep, coroRunStep]⟩
  | stepping input => exact ⟨.stepped .yieldedNone, rfl, by simp [coroStep, coroRunStep]⟩
  | hooking typeName => exact ⟨.accept, rfl, by simp [coroStep, coroRunStep]⟩
  | fired => exact ⟨.resolve none, rfl, by simp [coroStep]⟩
  | notify outcome =>
    refine ⟨.go, rfl, ?_⟩
    simp only [coroStep, coroRunStep]
    split <;> simp
  | _ => exact ⟨.go, rfl, by simp [coroStep, coroRunStep]⟩

/-! ## What holds of every run -/

variable {ι : Type} [DecidableEq ι] [Fintype ι]

/-- What holds of every run: the lock of the coroutine is held by the thread that it is taken by,
and a coroutine that has not ended has one continuation, or has lost it to a panic of `throw`. -/
structure CoroRun (c : CoroConfig V E ι) : Prop where
  inv : CoroInv c
  mutex : Mutex c.shared.locked CoroPc.holds c.loc
  held : c.shared.locked = true → ∃ i, (c.loc i).holds = true
  going : c.shared.ended = none →
    total CoroTask.waiting CoroPc.continues c = 1 ∧ (∀ i, c.loc i ≠ .unwound) ∨
      total CoroTask.waiting CoroPc.continues c = 0 ∧ ∃ i, c.loc i = .unwound

omit [DecidableEq ι] in
/-- It holds at the start. -/
theorem CoroRun.init : CoroRun (coroStart V E ι) where
  inv := .init
  mutex := .free fun _ => rfl
  held h := by cases h
  going _ := by
    refine .inl ⟨?_, fun i h => ?_⟩
    · simp [total, coroStart, CoroTask.new, CoroTask.waiting, CoroPc.continues]
    · cases h

section
variable {s s' : CoroTask V E} {f : ι → CoroPc V E} {i : ι} {m' : CoroPc V E}

omit [DecidableEq ι] [Fintype ι] in
/-- A call of `run` that was left by a panic does not go on. -/
theorem CoroTrans.ne_unwound {m : CoroPc V E} (h : CoroTrans s m s' m') : m ≠ .unwound := by
  rintro rfl
  cases h with
  | ends hm => rcases hm with hm | ⟨input, hm⟩ | ⟨typeName, hm⟩ <;> cases hm

omit [DecidableEq ι] [Fintype ι] in
/-- A call of `run` is left by a panic from a `throw`, which leaves what waits. -/
theorem CoroTrans.of_unwound {m : CoroPc V E} (h : CoroTrans s m s' .unwound) :
    m = .throwing ∧ s'.waiting = s.waiting := by
  cases h
  exact ⟨rfl, rfl⟩

/-- A step keeps it. -/
theorem CoroRun.step (hR : CoroRun ⟨s, f⟩) (h : CoroTrans s (f i) s' m') :
    CoroRun ⟨s', Function.update f i m'⟩ := by
  obtain ⟨hinv, hmutex, hheld, hgoing⟩ := hR
  have hlock := h.lock_trans hmutex.locked_of_holds
  refine ⟨hinv.step h, hmutex.step hlock.1 hlock.2.2, held_step hheld hlock.2.1 hlock.2.2, ?_⟩
  intro hnone
  change s'.ended = none at hnone
  have hone : total CoroTask.waiting CoroPc.continues ⟨s, f⟩ ≤ 1 := hinv.one
  by_cases hm' : m' = .unwound
  · -- a panic loses the continuation
    subst hm'
    obtain ⟨hthrow, hwaiting⟩ := h.of_unwound
    refine .inr ⟨?_, i, Function.update_self ..⟩
    have hless : total CoroTask.waiting CoroPc.continues ⟨s', Function.update f i .unwound⟩ + 1 =
        total CoroTask.waiting CoroPc.continues ⟨s, f⟩ + 0 := by
      refine total_step_transfer (c := Config.mk s f) ?_
      show s'.waiting + 0 + 1 = s.waiting + (f i).continues + 0
      rw [hwaiting, hthrow]
      rfl
    omega
  · have hsame : s'.ended = s.ended ∧
        total CoroTask.waiting CoroPc.continues ⟨s', Function.update f i m'⟩ =
          total CoroTask.waiting CoroPc.continues ⟨s, f⟩ := by
      rcases h.total_continues with (⟨heq, hsame⟩ | ⟨-, hsome⟩) | ⟨-, hsame, hwhy⟩
      · exact ⟨hsame, heq⟩
      · rw [hnone] at hsome
        cases hsome
      · rcases hwhy with ⟨-, hlost⟩ | ⟨-, hdead⟩
        · exact absurd hlost hm'
        · rw [show s.coro = true from hinv.alive (hsame.symm.trans hnone)] at hdead
          cases hdead
    rw [hsame.1] at hnone
    rw [hsame.2]
    rcases hgoing hnone with ⟨heq, hno⟩ | ⟨hzero, j, hj⟩
    · refine .inl ⟨heq, fun j hj => ?_⟩
      by_cases hji : j = i
      · subst hji
        simp only [Function.update_self] at hj
        exact hm' hj
      · simp only [Function.update_of_ne hji] at hj
        exact hno j hj
    · have hji : j ≠ i := by
        rintro rfl
        exact h.ne_unwound hj
      exact .inr ⟨hzero, j, (Function.update_of_ne hji ..).trans hj⟩

end

/-- It holds in every state reached. -/
theorem reachable_coroRun {c : CoroConfig V E ι} (h : (coroMachine V E ι).Reachable anyStep c) :
    CoroRun c := by
  refine Reach.invariant h .init ?_
  rintro c ⟨i, a⟩ c' hR - hst
  obtain ⟨s', m', hp, rfl⟩ := step_iff.1 hst
  exact hR.step (f := c.loc) (coroStep_trans hp)

/-! ## At rest -/

/-- No thread can go on but by firing a wake callback or setting the token. -/
def CoroStill (c : CoroConfig V E ι) : Prop :=
  ∀ i a, a.own = true → coroStep c.shared (c.loc i) a = none

/-- A coroutine at rest: no thread is in a call, unless a `throw` has panicked in it, and no handle
is queued; the coroutine has ended and its done callback was called once, with its outcome, or it
waits for the one object that has its wake callback, or a panic has lost it. -/
structure CoroRests (c : CoroConfig V E ι) : Prop where
  idle : ∀ i, c.loc i = .idle ∨ c.loc i = .unwound
  queued : c.shared.queued = 0
  result : (∃ outcome, c.shared.ended = some outcome ∧ c.shared.calls = [outcome]) ∨
    c.shared.ended = none ∧ c.shared.calls = [] ∧
      (c.shared.hooks = 1 ∨ c.shared.hooks = 0 ∧ ∃ i, c.loc i = .unwound)

omit [DecidableEq ι] [Fintype ι] in
/-- Where no thread can go on, none is in a call that goes on. -/
theorem idle_of_still {c : CoroConfig V E ι}
    (hheld : c.shared.locked = true → ∃ i, (c.loc i).holds = true) (hstill : CoroStill c) (i : ι) :
    c.loc i = .idle ∨ c.loc i = .unwound := by
  have hstays : ∀ j, (c.loc j).holds = true → False := by
    intro j hj
    obtain ⟨a, hown, hne⟩ := coroStep_enabled (s := c.shared) (m := c.loc j)
      (fun hidle => by rw [hidle] at hj; cases hj) (fun hlost => by rw [hlost] at hj; cases hj)
      (fun hlocking => by rw [hlocking] at hj; cases hj)
    exact hne (hstill j a hown)
  by_contra hbusy
  rw [not_or] at hbusy
  obtain ⟨a, hown, hne⟩ := coroStep_enabled hbusy.1 hbusy.2 fun _ => by
    by_contra hlocked
    obtain ⟨j, hj⟩ := hheld (Bool.eq_true_of_not_eq_false hlocked)
    exact hstays j hj
  exact hne (hstill i a hown)

omit [DecidableEq ι] in
/-- Where no thread can go on, the coroutine is at rest. -/
theorem CoroRun.rests [Nonempty ι] {c : CoroConfig V E ι} (hR : CoroRun c) (hstill : CoroStill c) :
    CoroRests c := by
  have hidle := idle_of_still hR.held hstill
  have hzero : ∑ i, (c.loc i).continues = 0 := by
    refine Finset.sum_eq_zero fun i _ => ?_
    rcases hidle i with hi | hi <;> rw [hi] <;> rfl
  have howes : ∑ i, (c.loc i).owes = 0 := by
    refine Finset.sum_eq_zero fun i _ => ?_
    rcases hidle i with hi | hi <;> rw [hi] <;> rfl
  have hwaiting : total CoroTask.waiting CoroPc.continues c = c.shared.queued + c.shared.hooks := by
    rw [total, hzero]
    rfl
  have htold : c.shared.calls.length = if c.shared.ended.isSome then 1 else 0 := by
    rw [← hR.inv.told, total, howes]
    rfl
  cases hended : c.shared.ended with
  | some outcome =>
    have hno := hR.inv.concluded (by rw [hended]; rfl)
    rw [hended] at htold
    obtain ⟨called, hcalled⟩ := List.length_eq_one_iff.1 htold
    have hsame := hR.inv.calls called (hcalled ▸ List.mem_singleton_self called)
    rw [hended] at hsame
    refine ⟨hidle, by omega, .inl ⟨outcome, hended, ?_⟩⟩
    rw [hcalled, Option.some.inj hsame]
  | none =>
    rw [hended] at htold
    have hcalls : c.shared.calls = [] := List.length_eq_zero_iff.1 htold
    rcases hR.going hended with ⟨hone, hno⟩ | ⟨hlost, hunwound⟩
    · -- a thread would pop a handle that is queued
      obtain ⟨i⟩ := ‹Nonempty ι›
      have hi : c.loc i = .idle := (hidle i).resolve_right (hno i)
      have hqueued : c.shared.queued = 0 := by
        by_contra hq
        have hrun := hstill i .run rfl
        simp [hi, coroStep, Nat.pos_of_ne_zero hq] at hrun
      exact ⟨hidle, hqueued, .inr ⟨hended, hcalls, .inl (by omega)⟩⟩
    · exact ⟨hidle, by omega, .inr ⟨hended, hcalls, .inr ⟨by omega, hunwound⟩⟩⟩

/-- Steps of the threads of their own. -/
def coroOwn (_ : CoroConfig V E ι) (a : ι × CoroAct V E) : Prop := a.2.own = true

/-- Wherever no thread has anything left to do, the coroutine is at rest. -/
theorem coroutine_rests [Nonempty ι] {c : CoroConfig V E ι}
    (h : (coroMachine V E ι).Reachable anyStep c) (hstuck : (coroMachine V E ι).Stuck coroOwn c) :
    CoroRests c :=
  (reachable_coroRun h).rests fun i a hown => Option.map_eq_none_iff.1 (hstuck (i, a) hown)

/-- A coroutine yields an object that accepts its wake callback. -/
def awaitRun : List (Unit × CoroAct Unit Unit) :=
  ((), .run) :: List.replicate 4 ((), .go) ++
    [((), .stepped (.yieldedHook "Future")), ((), .accept), ((), .go), ((), .go)]

/-- After that run it waits for the object. -/
theorem coroutine_rests_awaiting :
    ∃ c, (coroMachine Unit Unit Unit).run (coroStart Unit Unit Unit) awaitRun = some c ∧
      c.shared.hooks = 1 ∧ CoroRests c := by
  have hrun : (coroMachine Unit Unit Unit).run (coroStart Unit Unit Unit) awaitRun = some _ := rfl
  refine ⟨_, hrun, rfl, coroutine_rests (reach_of_run _ hrun) ?_⟩
  rintro ⟨i, a⟩ hown
  cases a with
  | fire | cancel => cases hown
  | _ => rfl

/-! ## Cancellation -/

namespace CoroPc

/-- The thread has looked at the token and is about to step the coroutine. -/
def toTake : CoroPc V E → ℕ
  | .takeInput => 1
  | _ => 0

/-- The thread has not looked at the token yet, or has found it set. -/
def early : CoroPc V E → Bool
  | .idle | .locking | .entered | .checkToken | .throwing | .fired | .injecting | .unwound => true
  | _ => false

end CoroPc

/-- A step of the coroutine that begins. -/
def sends (c : CoroConfig V E ι) (a : ι × CoroAct V E) (_ : CoroConfig V E ι) : ℕ :=
  (c.loc a.1).toTake

/-- The outcome of a coroutine that `run` cancels. -/
def cancelledOutcome : Except (CoroErr E) V := .error (.taskCancelled "cancelled")

section
variable {s s' : CoroTask V E} {m m' : CoroPc V E} {a : CoroAct V E}

/-- Where the token is set it stays set, and no thread comes to step the coroutine. -/
theorem coroStep_cancelled (h : coroStep s m a = some (s', m')) (ht : s.token = true) :
    s'.token = true ∧ m'.toTake = 0 := by
  have hcheck : m = .checkToken → m' ≠ .takeInput := by
    rintro rfl rfl
    cases a with
    | go =>
      simp only [coroStep, coroRunStep, ht, if_true, Option.some.injEq, Prod.mk.injEq] at h
      cases h.2
    | _ => cases h
  cases coroStep_trans h with
  | notCancelled => exact absurd rfl (hcheck rfl)
  | cancel => exact ⟨rfl, rfl⟩
  | _ => exact ⟨ht, rfl⟩

/-- A thread that has not looked at the token, or has found it set, ends the coroutine by its
cancellation if it ends it. -/
theorem coroStep_early (h : coroStep s m a = some (s', m')) (ht : s.token = true)
    (hm : m.early = true) (hcoro : s.coro = true) :
    s'.ended = s.ended ∧ m'.early = true ∨ s'.ended = some cancelledOutcome := by
  cases m with
  | throwing =>
    cases a with
    | thrown => cases h; exact .inr rfl
    | throwPanicked => cases h; exact .inl ⟨rfl, rfl⟩
    | _ => cases h
  | entered | checkToken =>
    cases a with
    | go =>
      simp only [coroStep, coroRunStep, hcoro, ht, if_true] at h
      cases h
      exact .inl ⟨rfl, rfl⟩
    | _ => cases h
  | idle | locking | fired | injecting | unwound =>
    cases coroStep_trans h with
    | ends hno => rcases hno with hno | ⟨input, hno⟩ | ⟨typeName, hno⟩ <;> cases hno
    | _ => exact .inl ⟨rfl, rfl⟩
  | _ => cases hm

end

section
variable {c c' : CoroConfig V E ι}

/-- A coroutine that no thread steps, or that was cancelled: what holds of it once the token is set.
-/
structure CoroCancelled (c : CoroConfig V E ι) : Prop where
  inv : CoroInv c
  token : c.shared.token = true
  outcome : c.shared.ended = none ∧ (∀ i, (c.loc i).early = true) ∨
    c.shared.ended = some cancelledOutcome

/-- A step keeps it. -/
theorem CoroCancelled.step {a : ι × CoroAct V E} (hC : CoroCancelled c)
    (hst : (coroMachine V E ι).step c a = some c') : CoroCancelled c' := by
  obtain ⟨hinv, htoken, houtcome⟩ := hC
  obtain ⟨s', m', hp, rfl⟩ := step_iff.1 hst
  have ht : CoroTrans c.shared (c.loc a.1) s' m' := coroStep_trans hp
  refine ⟨hinv.step (f := c.loc) ht, (coroStep_cancelled hp htoken).1, ?_⟩
  rcases houtcome with ⟨hnone, hearly⟩ | hcancelled
  · rcases coroStep_early hp htoken (hearly a.1) (hinv.alive hnone) with ⟨hsame, hm'⟩ | hended
    · refine .inl ⟨hsame.trans hnone, fun j => ?_⟩
      by_cases hj : j = a.1
      · subst hj
        simp only [Function.update_self]
        exact hm'
      · simp only [Function.update_of_ne hj]
        exact hearly j
    · exact .inr hended
  · right
    exact (hinv.ended_step (f := c.loc) ht (by rw [hcancelled]; rfl)).trans hcancelled

omit [DecidableEq ι] in
/-- One thread at most has looked at the token and is about to step the coroutine. -/
theorem CoroInv.toTake_le (hI : CoroInv c) : ∑ i, (c.loc i).toTake ≤ 1 := by
  have hcontinues : ∑ i, (c.loc i).toTake ≤ ∑ i, (c.loc i).continues := by
    refine Finset.sum_le_sum fun i _ => ?_
    cases c.loc i with
    | takeInput => exact le_rfl
    | _ => exact Nat.zero_le _
  have hone := hI.one
  unfold total at hone
  omega

end

/-- The token is set when a thread has looked at it. -/
def lateCancel : List (Bool × CoroAct Unit Unit) :=
  (false, .run) :: List.replicate 3 (false, .go) ++ [(true, .cancel)]

/-- That thread steps the coroutine, which yields, and runs it again. -/
def stepAfterCancel : List (Bool × CoroAct Unit Unit) :=
  [(false, .go), (false, .stepped .yieldedNone), (false, .go), (false, .go), (false, .run),
    (false, .go), (false, .go), (false, .go), (false, .thrown)]

end Hypertile
