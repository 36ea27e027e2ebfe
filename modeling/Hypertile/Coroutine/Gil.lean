import Hypertile.Coroutine.Once

/-!
# The interpreter lock

The steps of a coroutine task on an interpreter with a GIL. `run` attaches its thread first and
stays attached to its end, but for its calls into Python, in each of which the thread can hand the
GIL over and has to get it back; so has a thread that fires the wake callback. The lock of the
coroutine is taken while the thread is attached, and blocks without handing the GIL over.

A worker of the pool is not attached when it pops a handle. A registered worker is, where Python
code has called its `run_one` or `run_until_idle`: there the attach of `run` is nested, does nothing
when it begins, and leaves the GIL with the thread when it ends.

The two locks are taken in one order by a call that begins and in the other by one that comes back
from Python. They meet when a call begins attached, or attaches, while another one, in the middle of
a Python call, holds the lock of the coroutine (`gil_deadlock_iff`).
-/

namespace Hypertile

open Machine Machine.Threads

variable {V E : Type}

/-! ## The machine -/

/-- The task, and whether a thread has the GIL. -/
structure GilShared (V E : Type) where
  task : CoroTask V E
  gil : Bool

/-- Where a thread stands, whether it has the GIL, and whether it had it when it last called `run`.
-/
structure GilThread (V E : Type) where
  pc : CoroPc V E
  attached : Bool
  nested : Bool
  deriving DecidableEq

/-- What is chosen for a thread: to get the GIL, to hand it over, or a step on the task. -/
inductive GilAct (V E : Type) where
  | attach
  | handOver
  | act (a : CoroAct V E)
  deriving DecidableEq

namespace CoroPc

/-- The thread is in a call of `run`. -/
def inRun : CoroPc V E → Bool
  | .idle | .unwound | .fired | .injecting => false
  | _ => true

/-- The thread holds the lock of the coroutine. -/
def holds : CoroPc V E → Bool
  | .idle | .unwound | .fired | .injecting | .locking => false
  | _ => true

/-- The thread is in a call into Python, or in Python code of its own. -/
def callsPython : CoroPc V E → Bool
  | .idle | .throwing | .stepping _ | .hooking _ | .hooked | .calling | .fired => true
  | _ => false

end CoroPc

/-- The thread may take a step on the task: in `run` or in a wake callback it has to be attached. -/
def GilThread.mayAct (l : GilThread V E) : Bool :=
  match l.pc with
  | .idle => true
  | _ => l.attached

/-- The step leaves `run`, and with it the `Python::attach` that has got the GIL. -/
def GilThread.leaves (l : GilThread V E) (m' : CoroPc V E) : Bool :=
  l.pc.inRun && !m'.inRun && !l.nested

/-- Whether the thread had the GIL when it last called `run`, after a step to `m'`. -/
def GilThread.nestedAt (l : GilThread V E) (m' : CoroPc V E) : Bool :=
  match m' with
  | .locking => l.attached
  | _ => l.nested

/-- A step of a thread. -/
def gilStep (s : GilShared V E) (l : GilThread V E) :
    GilAct V E → Option (GilShared V E × GilThread V E)
  | .attach =>
    if l.attached = false ∧ s.gil = false then
      some ({ s with gil := true }, { l with attached := true })
    else none
  | .handOver =>
    if l.attached = true ∧ l.pc.callsPython = true then
      some ({ s with gil := false }, { l with attached := false })
    else none
  | .act a =>
    if l.mayAct then
      (coroStep s.task l.pc a).map fun r =>
        (⟨r.1, if l.leaves r.2 then false else s.gil⟩,
          ⟨r.2, if l.leaves r.2 then false else l.attached, l.nestedAt r.2⟩)
    else none

/-- A task that has just been spawned, and the threads `ι`, none of which has the GIL. -/
def gilStart (V E ι : Type) : Config (GilShared V E) (GilThread V E) ι :=
  ⟨⟨.new, false⟩, fun _ => ⟨.idle, false, false⟩⟩

/-- The configurations of a task and the GIL. -/
abbrev GilConfig (V E ι : Type) := Config (GilShared V E) (GilThread V E) ι

/-- All interleavings. -/
def gilMachine (V E ι : Type) [DecidableEq ι] : Machine (GilConfig V E ι) (ι × GilAct V E) :=
  .threads (fun _ => gilStep) (gilStart V E ι)

/-! ## The steps -/

/-- `GilTrans s l a s' l'`: a thread at `l` can take the step `a` from `s`, to `s'` and `l'`. -/
inductive GilTrans (s : GilShared V E) (l : GilThread V E) :
    GilAct V E → GilShared V E → GilThread V E → Prop
  | attach (hno : l.attached = false) (hfree : s.gil = false) :
      GilTrans s l .attach { s with gil := true } { l with attached := true }
  | handOver (hatt : l.attached = true) (hpc : l.pc.callsPython = true) :
      GilTrans s l .handOver { s with gil := false } { l with attached := false }
  /-- A call of `run`, by a thread that is attached or is not. -/
  | call {t' : CoroTask V E} (hidle : l.pc = .idle) (ht : CoroTrans s.task .idle t' .locking) :
      GilTrans s l (.act .run) ⟨t', s.gil⟩ ⟨.locking, l.attached, l.attached⟩
  /-- A step on the task by a thread that is attached and stays so. -/
  | act {a : CoroAct V E} {t' : CoroTask V E} {m' : CoroPc V E} (ha : a ≠ .run)
      (hatt : l.attached = true) (ht : CoroTrans s.task l.pc t' m') (hm' : m' ≠ .locking) :
      GilTrans s l (.act a) ⟨t', s.gil⟩ ⟨m', true, l.nested⟩
  /-- A step by which a thread that has attached in `run` leaves it. -/
  | leave {a : CoroAct V E} {t' : CoroTask V E} {m' : CoroPc V E} (ha : a ≠ .run)
      (hatt : l.attached = true) (hnested : l.nested = false) (ht : CoroTrans s.task l.pc t' m')
      (hm' : m'.inRun = false) : GilTrans s l (.act a) ⟨t', false⟩ ⟨m', false, false⟩
  /-- A step that a thread begins without the GIL. -/
  | begin {a : CoroAct V E} {t' : CoroTask V E} {m' : CoroPc V E} (ha : a ≠ .run)
      (hno : l.attached = false) (hidle : l.pc = .idle) (ht : CoroTrans s.task .idle t' m')
      (hm' : m' ≠ .locking) : GilTrans s l (.act a) ⟨t', s.gil⟩ ⟨m', false, l.nested⟩

section
variable {s s' : GilShared V E} {l l' : GilThread V E}

/-- A thread that calls `run` comes to lock the coroutine. -/
theorem coroStep_run {t t' : CoroTask V E} {m m' : CoroPc V E}
    (h : coroStep t m .run = some (t', m')) : m = .idle ∧ m' = .locking := by
  cases m with
  | idle =>
    simp only [coroStep] at h
    split at h <;> cases h
    exact ⟨rfl, rfl⟩
  | _ => cases h

/-- A thread that comes to lock the coroutine has called `run`. -/
theorem coroStep_locking {t t' : CoroTask V E} {m : CoroPc V E} {a : CoroAct V E}
    (h : coroStep t m a = some (t', .locking)) : a = .run := by
  have hidle : m = .idle := by
    cases coroStep_trans h
    rfl
  subst hidle
  cases a with
  | run => rfl
  | fire =>
    simp only [coroStep] at h
    split at h <;> cases h
  | _ => cases h

/-- What a step on the task does that is no call of `run`. -/
theorem gilStep_act {a : CoroAct V E} (ha : a ≠ .run) (h : gilStep s l (.act a) = some (s', l')) :
    GilTrans s l (.act a) s' l' := by
  simp only [gilStep] at h
  split at h
  · next hmay =>
    obtain ⟨⟨t', m'⟩, hp, he⟩ := Option.map_eq_some_iff.1 h
    have ht := coroStep_trans hp
    have hm' : m' ≠ .locking := by
      rintro rfl
      exact ha (coroStep_locking hp)
    have hnested : l.nestedAt m' = l.nested := by
      cases m' with
      | locking => exact absurd rfl hm'
      | _ => rfl
    simp only [hnested] at he
    obtain ⟨pc, attached, nested⟩ := l
    cases attached with
    | true =>
      by_cases hleaves : (⟨pc, true, nested⟩ : GilThread V E).leaves m' = true
      · have hout := hleaves
        simp only [GilThread.leaves, Bool.and_eq_true, Bool.not_eq_true'] at hout
        obtain ⟨⟨-, hout⟩, rfl⟩ := hout
        rw [if_pos hleaves, if_pos hleaves] at he
        cases he
        exact .leave ha rfl rfl ht hout
      · rw [if_neg hleaves, if_neg hleaves] at he
        cases he
        exact .act ha rfl ht hm'
    | false =>
      have hidle : pc = .idle := by
        cases pc with
        | idle => rfl
        | _ => cases hmay
      subst hidle
      cases he
      exact .begin ha rfl rfl ht hm'
  · cases h

/-- What a step can do. -/
theorem gilStep_trans {a : GilAct V E} (h : gilStep s l a = some (s', l')) :
    GilTrans s l a s' l' := by
  cases a with
  | attach =>
    simp only [gilStep] at h
    split at h
    · next hno => cases h; exact .attach hno.1 hno.2
    · cases h
  | handOver =>
    simp only [gilStep] at h
    split at h
    · next hatt => cases h; exact .handOver hatt.1 hatt.2
    · cases h
  | act a =>
    by_cases ha : a = .run
    · subst ha
      simp only [gilStep] at h
      split at h
      · obtain ⟨⟨t', m'⟩, hp, he⟩ := Option.map_eq_some_iff.1 h
        obtain ⟨hidle, rfl⟩ := coroStep_run hp
        have ht := coroStep_trans hp
        obtain ⟨pc, attached, nested⟩ := l
        subst hidle
        cases he
        exact .call rfl ht
      · cases h
    · exact gilStep_act ha h

/-- What a step on the task does with the lock of the coroutine. -/
theorem CoroTrans.lock_trans {t t' : CoroTask V E} {m m' : CoroPc V E} (h : CoroTrans t m t' m')
    (hl : m.holds = true → t.locked = true) :
    (m'.holds = true → t'.locked = true ∧ (m.holds = true ∨ t.locked = false)) ∧
    (m.holds = true → m'.holds = false → t'.locked = false) ∧
    (m.holds = false → m'.holds = false → t'.locked = t.locked) := by
  cases h with
  | lock hfree => exact ⟨fun _ => ⟨rfl, .inr hfree⟩, nofun, nofun⟩
  | throwPanicked | release => exact ⟨nofun, fun _ _ => rfl, nofun⟩
  | pop | fire | cancel | resolve | inject => exact ⟨nofun, nofun, fun _ _ => rfl⟩
  | ends hm =>
    have hm : m.holds = true := by
      rcases hm with rfl | ⟨input, rfl⟩ | ⟨typeName, rfl⟩ <;> rfl
    refine ⟨fun _ => ⟨hl hm, .inl hm⟩, nofun, fun hno => ?_⟩
    rw [hm] at hno
    cases hno
  | _ => exact ⟨fun _ => ⟨hl rfl, .inl rfl⟩, nofun, nofun⟩

/-- A thread that comes to hold the lock of the coroutine is in `run` before. -/
theorem CoroTrans.not_holds {t t' : CoroTask V E} {m' : CoroPc V E}
    (h : CoroTrans t .idle t' m') : m'.holds = false := by
  cases h with
  | ends hm => rcases hm with hm | ⟨input, hm⟩ | ⟨typeName, hm⟩ <;> cases hm
  | _ => rfl

/-- A thread that does not hold the lock is out of `run`, or about to take it. -/
theorem CoroPc.holds_of_inRun {m : CoroPc V E} (h : m.inRun = false) : m.holds = false := by
  cases m with
  | idle | unwound | fired | injecting => rfl
  | _ => cases h

end

/-! ## Deadlock -/

variable {ι : Type} [DecidableEq ι]

/-- A thread waits for the lock of the coroutine and has the GIL, and the thread that holds the lock
waits for the GIL. -/
def GilDeadlock (c : GilConfig V E ι) : Prop :=
  ∃ i j, (c.loc i).pc = .locking ∧ (c.loc i).attached = true ∧ (c.loc j).pc.holds = true ∧
    (c.loc j).attached = false

/-- A call of `run` attaches; on a thread that is attached it does so when it begins. -/
def GilThread.AttachesInRun (l : GilThread V E) (a : GilAct V E) : Prop :=
  a = .attach ∧ l.pc = .locking ∨ a = .act .run ∧ l.attached = true

/-- A call of `run` attaches only while no thread holds the lock of the coroutine. -/
def attachesFree (c : GilConfig V E ι) (a : ι × GilAct V E) : Prop :=
  (c.loc a.1).AttachesInRun a.2 → c.shared.task.locked = false

/-- The two locks are held by the threads at the places that say so. -/
structure GilInv (s : GilShared V E) (f : ι → GilThread V E) : Prop where
  gil : Mutex s.gil GilThread.attached f
  lock : Mutex s.task.locked (fun l : GilThread V E => l.pc.holds) f
  held : s.task.locked = true → ∃ j, (f j).pc.holds = true

section
variable {s s' : GilShared V E} {f : ι → GilThread V E} {i : ι} {l' : GilThread V E}
  {a : GilAct V E}

omit [DecidableEq ι] in
/-- The invariant holds at the start. -/
theorem GilInv.init : GilInv (gilStart V E ι).shared (gilStart V E ι).loc where
  gil := .free fun _ => rfl
  lock := .free fun _ => rfl
  held := nofun

/-- What a step does with the GIL. -/
theorem GilTrans.gil_trans {l : GilThread V E} (h : GilTrans s l a s' l')
    (hl : l.attached = true → s.gil = true) :
    (l'.attached = true → s'.gil = true ∧ (l.attached = true ∨ s.gil = false)) ∧
    (l.attached = false → l'.attached = false → s'.gil = s.gil) := by
  cases h with
  | attach hno hfree => exact ⟨fun _ => ⟨rfl, .inr hfree⟩, fun _ hno' => nomatch hno'⟩
  | handOver hatt => exact ⟨nofun, fun hno => by rw [hatt] at hno; cases hno⟩
  | call => exact ⟨fun hatt => ⟨hl hatt, .inl hatt⟩, fun _ _ => rfl⟩
  | act _ hatt => exact ⟨fun _ => ⟨hl hatt, .inl hatt⟩, fun _ hno' => nomatch hno'⟩
  | leave _ hatt => exact ⟨nofun, fun hno => by rw [hatt] at hno; cases hno⟩
  | begin => exact ⟨nofun, fun _ _ => rfl⟩

/-- What a step does with the lock of the coroutine. -/
theorem GilTrans.lock_trans {l : GilThread V E} (h : GilTrans s l a s' l')
    (hl : l.pc.holds = true → s.task.locked = true) :
    (l'.pc.holds = true → s'.task.locked = true ∧ (l.pc.holds = true ∨ s.task.locked = false)) ∧
    (l.pc.holds = true → l'.pc.holds = false → s'.task.locked = false) ∧
    (l.pc.holds = false → l'.pc.holds = false → s'.task.locked = s.task.locked) := by
  cases h with
  | attach | handOver =>
    refine ⟨fun hh => ⟨hl hh, .inl hh⟩,
      fun (hh : l.pc.holds = true) (hno : l.pc.holds = false) => ?_, fun _ _ => rfl⟩
    rw [hh] at hno
    cases hno
  | act _ _ ht | leave _ _ _ ht => exact ht.lock_trans hl
  | call hidle ht | begin _ _ hidle ht =>
    rw [hidle] at hl ⊢
    exact ht.lock_trans hl

/-- A call of `run` comes to wait for the lock of the coroutine with the GIL exactly if it attaches.
-/
theorem GilTrans.locking_iff {a : GilAct V E} {l : GilThread V E} (h : GilTrans s l a s' l') :
    l'.pc = .locking ∧ l'.attached = true ↔ l.AttachesInRun a := by
  cases h with
  | attach | handOver | call => simp [GilThread.AttachesInRun]
  | act ha _ _ hm' => simp [GilThread.AttachesInRun, ha, hm']
  | leave ha | begin ha => simp [GilThread.AttachesInRun, ha]

/-- It does not hold the lock before. -/
theorem GilThread.AttachesInRun.not_holds {a : GilAct V E} {l : GilThread V E}
    (h : l.AttachesInRun a) (ht : GilTrans s l a s' l') : l.pc.holds = false := by
  rcases h with ⟨-, hpc⟩ | ⟨rfl, -⟩
  · rw [hpc]
    rfl
  · cases ht with
    | call hidle =>
      rw [hidle]
      rfl
    | act ha | leave ha | begin ha => exact absurd rfl ha

/-- A step keeps the invariant. -/
theorem GilInv.step (hI : GilInv s f) (h : GilTrans s (f i) a s' l') :
    GilInv s' (Function.update f i l') := by
  have hgil := h.gil_trans hI.gil.locked_of_holds
  have hlock := h.lock_trans hI.lock.locked_of_holds
  have hheld := @held_step _ _ _ _ _ (fun l : GilThread V E => l.pc.holds) _ _ _ hI.held hlock.2.1
    hlock.2.2
  exact ⟨hI.gil.step hgil.1 hgil.2, hI.lock.step hlock.1 hlock.2.2, hheld⟩

/-- A step leads from a state that is not deadlocked to another one exactly if it is no `attach` of
a call of `run` while a thread holds the lock. -/
theorem GilInv.step_deadlock {c c' : GilConfig V E ι} {a : ι × GilAct V E}
    (hI : GilInv c.shared c.loc) (hno : ¬ GilDeadlock c)
    (hst : (gilMachine V E ι).step c a = some c') : ¬ GilDeadlock c' ↔ attachesFree c a := by
  obtain ⟨k, a⟩ := a
  obtain ⟨s', l', hp, rfl⟩ := step_iff.1 hst
  have ht : GilTrans c.shared (c.loc k) a s' l' := gilStep_trans hp
  constructor
  · intro hno' hattaches
    refine Bool.eq_false_iff.2 fun hlocked => hno' ?_
    obtain ⟨hpc, hatt⟩ := ht.locking_iff.2 hattaches
    obtain ⟨j, hj⟩ := hI.held hlocked
    have hjk : j ≠ k := by
      rintro rfl
      rw [hattaches.not_holds ht] at hj
      cases hj
    -- only one thread has the GIL after the step
    have hunique := (hI.step ht).gil.unique (i := k) (j := j)
    refine ⟨k, j, ?_⟩
    simp only [Function.update_self, Function.update_of_ne hjk] at hunique ⊢
    exact ⟨hpc, hatt, hj, Bool.eq_false_iff.2 fun hj' => hjk (hunique hatt hj').symm⟩
  · rintro hfree ⟨i, j, hi, hiatt, hj, hjatt⟩
    change (Function.update c.loc k l' i).pc = _ at hi
    change (Function.update c.loc k l' i).attached = _ at hiatt
    change (Function.update c.loc k l' j).pc.holds = _ at hj
    change (Function.update c.loc k l' j).attached = _ at hjatt
    have hij : i ≠ j := by
      rintro rfl
      rw [hiatt] at hjatt
      cases hjatt
    by_cases hik : i = k
    · -- the thread that waits for the lock moves: it attaches
      subst hik
      rw [Function.update_self] at hi hiatt
      rw [Function.update_of_ne hij.symm] at hj
      have hlocked := hfree (ht.locking_iff.1 ⟨hi, hiatt⟩)
      rw [hI.lock.locked_of_holds hj] at hlocked
      cases hlocked
    · rw [Function.update_of_ne hik] at hi hiatt
      by_cases hjk : j = k
      · -- the thread that holds the lock moves: it was attached as well
        subst hjk
        rw [Function.update_self] at hj hjatt
        cases ht with
        | attach | act => cases hjatt
        | handOver hatt => exact hij (hI.gil.unique hiatt hatt)
        | call => cases hj
        | leave _ _ _ _ hm' =>
          rw [CoroPc.holds_of_inRun hm'] at hj
          cases hj
        | begin _ _ _ ht =>
          rw [ht.not_holds] at hj
          cases hj
      · rw [Function.update_of_ne hjk] at hj hjatt
        exact hno ⟨i, j, hi, hiatt, hj, hjatt⟩

end

/-- Along a run, no state has a thread that waits for the lock of the coroutine with the GIL while
the holder of the lock waits for the GIL, if and only if a call of `run` attaches only while no
thread holds the lock of the coroutine. -/
theorem gil_deadlock_iff (V E ι : Type) [DecidableEq ι] (as : List (ι × GilAct V E)) :
    (gilMachine V E ι).AllStates (fun c => ¬ GilDeadlock c) (gilStart V E ι) as ↔
      (gilMachine V E ι).AllSteps attachesFree (gilStart V E ι) as := by
  refine allStates_iff_allSteps (I := fun c => GilInv c.shared c.loc) ?_ ?_ .init ?_
  · rintro c ⟨i, a⟩ c' hI hst
    obtain ⟨s', l', hp, rfl⟩ := step_iff.1 hst
    exact hI.step (gilStep_trans hp)
  · exact fun c a c' hI hno hst => hI.step_deadlock hno hst
  · rintro ⟨i, j, hi, -⟩
    cases hi

/-- A worker runs the coroutine, which yields an object. While the worker is in `add_done_callback`,
a thread that is no worker fires the wake callback, and a second worker runs the coroutine. -/
def wakeInHookRun : List (Option Bool × GilAct Unit Unit) :=
  [(some false, .act .run), (some false, .attach)] ++ List.replicate 4 (some false, .act .go) ++
    [(some false, .act (.stepped (.yieldedHook "Future"))), (some false, .act .accept),
      (some false, .handOver), (none, .act .fire), (none, .attach), (none, .act (.resolve none)),
      (none, .act .go), (none, .handOver), (some true, .act .run), (some true, .attach)]

/-- After that run the two workers wait for each other. -/
theorem gil_deadlocks :
    ∃ c, (gilMachine Unit Unit (Option Bool)).run (gilStart Unit Unit (Option Bool))
        wakeInHookRun = some c ∧ GilDeadlock c :=
  ⟨_, rfl, some true, some false, rfl, rfl, rfl, rfl⟩

end Hypertile
