import Hypertile.Completion.Core
import Mathlib.Data.Multiset.Count
import Mathlib.Tactic.Abel

/-!
# The callback queue is drained once

What holds of the callbacks of any task type that completes soundly (`TaskType.Lawful`), in every
state its futures and callers reach: the futures and the inner state are in the invariant of the
task type, a thread that calls callbacks finds the task done (`reachable_afterDone`), a done task
with callbacks in its queue has a thread that will take them (`reachable_drainer`), and what a
callback adds to a record of calls is added once (`reachable_calls`).
-/

namespace Hypertile

open Machine Machine.Threads

variable {V E κ ι : Type} {T : TaskType V E} {callable : κ → Callable}

/-! ## The steps -/

/-- `CallbackTrans T callable s m s' m'`: a thread at `m` that is no future at work can take a step
from `s`, to `s'` and `m'`. -/
inductive CallbackTrans (T : TaskType V E) (callable : κ → Callable) (s : Completion T.Inner κ) :
    CallbackPc T.Work κ → Completion T.Inner κ → CallbackPc T.Work κ → Prop
  | register {cb : κ} : CallbackTrans T callable s .idle
      { s with registered := cb :: s.registered } (.locking cb)
  | lock {cb : κ} :
      CallbackTrans T callable s (.locking cb) { s with locked := true } (.checking cb)
  | checkDone {cb : κ} (hdone : T.done s.inner = true) :
      CallbackTrans T callable s (.checking cb) s (.dropping [cb])
  | check {cb : κ} : CallbackTrans T callable s (.checking cb) s (.pushing cb)
  | push {cb : κ} : CallbackTrans T callable s (.pushing cb)
      { s with callbacks := s.callbacks ++ [cb] } .rechecking
  | recheckDone (hdone : T.done s.inner = true) : CallbackTrans T callable s .rechecking s .taking
  | recheck (hdone : T.done s.inner ≠ true) :
      CallbackTrans T callable s .rechecking s (.dropping [])
  | lockDrain : CallbackTrans T callable s .draining { s with locked := true } .taking
  | take : CallbackTrans T callable s .taking { s with callbacks := [] } (.dropping s.callbacks)
  | unlock {queue : List κ} :
      CallbackTrans T callable s (.dropping queue) { s with locked := false } (.calling queue)
  | leave : CallbackTrans T callable s (.calling []) s .idle
  | call {cb : κ} {queue : List κ} (hcb : (callable cb).fallsBack = false) :
      CallbackTrans T callable s (.calling (cb :: queue))
        { s with called := cb :: s.called, entered := enters0 callable cb ++ s.entered }
        (.calling queue)
  | callFails {cb : κ} {queue : List κ} (hcb : (callable cb).fallsBack = true) :
      CallbackTrans T callable s (.calling (cb :: queue))
        { s with called := cb :: s.called, entered := enters0 callable cb ++ s.entered }
        (.retrying cb queue)
  | retry {cb : κ} {queue : List κ} : CallbackTrans T callable s (.retrying cb queue)
      { s with entered := enters1 callable cb ++ s.entered } (.calling queue)

/-- What a step can do: a future works on the inner state, or a thread takes a step of
`CallbackTrans`. -/
theorem completionStep_cases {t : Fin T.futures ⊕ ι} {s s' : Completion T.Inner κ}
    {m m' : CallbackPc T.Work κ} {a : CallbackAct κ}
    (h : completionStep T callable t s m a = some (s', m')) :
    (∃ p w r, t = .inl p ∧ m = .working w ∧ T.work p w s.inner = some r ∧
      s.advance r.1 r.2 = (s', m')) ∨ CallbackTrans T callable s m s' m' := by
  cases a with
  | register cb =>
    cases m with
    | idle => cases h; exact .inr .register
    | working w => cases h
    | calling queue => cases queue <;> cases h
    | _ => cases h
  | go =>
    cases m with
    | working w =>
      cases t with
      | inr i => cases h
      | inl p =>
        obtain ⟨r, hr, h⟩ := Option.map_eq_some_iff.1 h
        exact .inl ⟨p, w, r, rfl, rfl, hr, h⟩
    | idle => cases h
    | locking cb =>
      simp only [completionStep] at h
      split at h
      · cases h
      · cases h; exact .inr .lock
    | checking cb =>
      simp only [completionStep] at h
      split at h
      · next hdone => cases h; exact .inr (.checkDone hdone)
      · cases h; exact .inr .check
    | pushing cb => cases h; exact .inr .push
    | rechecking =>
      simp only [completionStep] at h
      split at h
      · next hdone => cases h; exact .inr (.recheckDone hdone)
      · next hdone => cases h; exact .inr (.recheck hdone)
    | draining =>
      simp only [completionStep] at h
      split at h
      · cases h
      · cases h; exact .inr .lockDrain
    | taking => cases h; exact .inr .take
    | dropping queue => cases h; exact .inr .unlock
    | calling queue =>
      cases queue with
      | nil => cases h; exact .inr .leave
      | cons cb queue =>
        simp only [completionStep] at h
        split at h
        · next hcb => cases h; exact .inr (.callFails hcb)
        · next hcb => cases h; exact .inr (.call (by simpa using hcb))
    | retrying cb queue => cases h; exact .inr .retry

/-- Where a future stands, `none` when it has published. -/
def CallbackPc.work : CallbackPc T.Work κ → Option T.Work
  | .working w => some w
  | _ => none

/-- A thread that is no future at work leaves the inner state as it is, and does not become one. -/
theorem CallbackTrans.inner {s s' : Completion T.Inner κ} {m m' : CallbackPc T.Work κ}
    (h : CallbackTrans T callable s m s' m') :
    s'.inner = s.inner ∧ s'.finals = s.finals ∧ m.work = none ∧ m'.work = none := by
  cases h <;> exact ⟨rfl, rfl, rfl, rfl⟩

/-- A step of a future leaves the queue and the records as they are. -/
theorem Completion.advance_eq {s s' : Completion T.Inner κ} {d : T.Inner} {n : T.Work ⊕ Bool}
    {m' : CallbackPc T.Work κ} (h : s.advance d n = (s', m')) :
    s'.inner = d ∧ s'.callbacks = s.callbacks ∧ s'.registered = s.registered ∧
      s'.called = s.called ∧ s'.entered = s.entered ∧ m'.work = n.getLeft? := by
  rcases n with w | _ | _ <;> cases h <;> exact ⟨rfl, rfl, rfl, rfl, rfl, rfl⟩

/-! ## The futures -/

section
variable [DecidableEq ι]
  {c c' : Config (Completion T.Inner κ) (CallbackPc T.Work κ) (Fin T.futures ⊕ ι)}

/-- Where the futures stand. -/
def works (c : Config (Completion T.Inner κ) (CallbackPc T.Work κ) (Fin T.futures ⊕ ι)) :
    Fin T.futures → Option T.Work :=
  fun p => (c.loc (.inl p)).work

/-- A step of a future at work, or a step that leaves the futures and the inner state as they are.
-/
theorem step_works {a : (Fin T.futures ⊕ ι) × CallbackAct κ}
    (h : (completionMachine T callable ι).step c a = some c') :
    (∃ p w r, works c p = some w ∧ T.work p w c.shared.inner = some r ∧
      c'.shared.inner = r.1 ∧ works c' = Function.update (works c) p r.2.getLeft? ∧
      (c'.shared.finals = c.shared.finals + if r.2.getRight? = some true then 1 else 0)) ∨
    (c'.shared.inner = c.shared.inner ∧ works c' = works c ∧
      c'.shared.finals = c.shared.finals) := by
  obtain ⟨s', m', hp, rfl⟩ := step_iff.1 h
  rcases completionStep_cases hp with ⟨p, w, r, ht, hm, hr, hadv⟩ | htr
  · left
    obtain ⟨hinner, -, -, -, -, hwork⟩ := Completion.advance_eq hadv
    refine ⟨p, w, r, ?_, hr, hinner, ?_, ?_⟩
    · rw [works, ← ht, hm]
      rfl
    · funext q
      by_cases hq : q = p
      · subst hq
        simp only [works, ht, Function.update_self, hwork]
      · simp only [works, ht, Function.update_of_ne hq]
        rw [Function.update_of_ne (fun he => hq (Sum.inl.inj he))]
    · rcases r with ⟨d, w' | _ | _⟩ <;> cases hadv <;> rfl
  · right
    obtain ⟨hinner, hfinals, hm, hm'⟩ := htr.inner
    refine ⟨hinner, ?_, hfinals⟩
    funext q
    by_cases hq : Sum.inl q = a.1
    · simp only [works]
      rw [hq, Function.update_self, hm', hm]
    · simp only [works]
      rw [Function.update_of_ne hq]

/-- The futures and the inner state stay in the invariant of the task type. -/
theorem reachable_lawful (hT : T.Lawful)
    (h : (completionMachine T callable ι).Reachable anyStep c) :
    hT.Inv c.shared.inner (works c) := by
  refine h.invariant (I := fun c => hT.Inv c.shared.inner (works c)) hT.init ?_
  intro c a c' hI _ hst
  rcases step_works hst with ⟨p, w, r, hp, hr, hinner, hworks, -⟩ | ⟨hinner, hworks, -⟩
  · rw [hinner, hworks]
    exact hT.step hI hp hr
  · rw [hinner, hworks]
    exact hI

/-- Once the task is done, the inner state does not change any more. -/
theorem inner_of_done (hT : T.Lawful)
    (h : (completionMachine T callable ι).Reachable anyStep c)
    (hdone : T.done c.shared.inner = true)
    (h' : (completionMachine T callable ι).Reach anyStep c c') :
    c'.shared.inner = c.shared.inner := by
  refine (h'.invariant_of (J := fun c' => hT.Inv c'.shared.inner (works c'))
    (I := fun c' => c'.shared.inner = c.shared.inner)
    (fun c' hc' => reachable_lawful hT (h.trans hc')) rfl ?_)
  intro c₁ a c₂ hJ hI _ hst
  rcases step_works hst with ⟨p, w, r, hp, hr, hinner, -⟩ | ⟨hinner, -⟩
  · have hnone : works c₁ p = none := (hT.done_iff hJ).1 (by rw [hI, hdone]) p
    rw [hnone] at hp
    cases hp
  · rw [hinner, hI]

/-- A done task stays done, in one step. -/
theorem done_step (hT : T.Lawful) {a : (Fin T.futures ⊕ ι) × CallbackAct κ}
    (h : (completionMachine T callable ι).Reachable anyStep c)
    (hst : (completionMachine T callable ι).step c a = some c')
    (hdone : T.done c.shared.inner = true) : T.done c'.shared.inner = true := by
  rw [inner_of_done hT h hdone (Reach.single trivial hst), hdone]

/-- Of the futures, one has been told that it published last once the task is done, none before; and
none at all where there are no futures. -/
theorem reachable_finals (hT : T.Lawful)
    (h : (completionMachine T callable ι).Reachable anyStep c) :
    c.shared.finals = if T.done c.shared.inner = true ∧ 0 < T.futures then 1 else 0 := by
  refine h.invariant_of (J := fun c => hT.Inv c.shared.inner (works c))
    (I := fun c => c.shared.finals = if T.done c.shared.inner = true ∧ 0 < T.futures then 1 else 0)
    (fun c hc => reachable_lawful hT hc) ?_ ?_
  · rw [if_neg]
    · rfl
    · rintro ⟨hdone, hpos⟩
      cases (hT.done_iff hT.init).1 hdone ⟨0, hpos⟩
  · intro c a c' hJ hI _ hst
    rcases step_works hst with
      ⟨p, w, ⟨d, n⟩, hp, hr, hinner, hworks, hfinals⟩ | ⟨hinner, -, hfinals⟩
    · have hpos : 0 < T.futures := p.pos
      have hnot : ¬(T.done c.shared.inner = true ∧ 0 < T.futures) := by
        rintro ⟨hdone, -⟩
        rw [(hT.done_iff hJ).1 hdone p] at hp
        cases hp
      rw [if_neg hnot] at hI
      rw [hfinals, hI, hinner, Nat.zero_add]
      cases n with
      | inr final =>
        have := hT.last hJ hp hr
        subst this
        simp [hpos]
      | inl w' =>
        have hJ' := hT.step hJ hp hr
        have hnd : T.done d ≠ true := fun hdone => by
          have := (hT.done_iff hJ').1 hdone p
          simp at this
        simp [hnd]
    · rw [hfinals, hinner, hI]

/-! ## The queue -/

/-- The thread calls callbacks, or is about to take some and call them. -/
def CallbackPc.afterDone : CallbackPc T.Work κ → Bool
  | .draining | .taking | .dropping (_ :: _) | .calling (_ :: _) | .retrying _ _ => true
  | _ => false

/-- A thread comes to call callbacks only where the task is done. -/
theorem CallbackTrans.afterDone {s s' : Completion T.Inner κ} {m m' : CallbackPc T.Work κ}
    (h : CallbackTrans T callable s m s' m') (hm' : m'.afterDone = true) :
    T.done s.inner = true ∨ m.afterDone = true := by
  cases h with
  | checkDone hdone | recheckDone hdone => exact .inl hdone
  | lockDrain | take | retry | call | callFails => exact .inr rfl
  | unlock =>
    rename_i queue
    cases queue with
    | nil => cases hm'
    | cons => exact .inr rfl
  | _ => cases hm'

/-- A thread that calls callbacks finds the task done. -/
theorem reachable_afterDone (hT : T.Lawful)
    (h : (completionMachine T callable ι).Reachable anyStep c)
    (t : Fin T.futures ⊕ ι) : (c.loc t).afterDone = true → T.done c.shared.inner = true := by
  refine invariant_local
    (J := fun c => (completionMachine T callable ι).Reachable anyStep c)
    (L := fun _ s m => m.afterDone = true → T.done s.inner = true) h (fun _ hc => hc) ?_ ?_ ?_ t
  · rintro (p | i) hm <;> cases hm
  · intro c t a s' m m' hc _ hloc hI hp hm'
    rcases completionStep_cases hp with ⟨p, w, r, ht, hm, hr, hadv⟩ | htr
    · have hw : works c p = some w := by rw [works, ← ht, hloc, hm]; rfl
      rcases r with ⟨d, w' | _ | _⟩ <;> cases hadv
      · cases hm'
      · cases hm'
      · exact (hT.last (reachable_lawful hT hc) hw hr).symm
    · rw [htr.inner.1]
      exact (htr.afterDone hm').elim id hI
  · intro c t a s' m m' j hc _ hloc _ hp hI hm'
    have hst : (completionMachine T callable ι).step c (t, a) =
        some ⟨s', Function.update c.loc t m'⟩ := step_iff.2 ⟨s', m', hloc ▸ hp, rfl⟩
    exact done_step hT hc hst (hI hm')

/-- A step that adds to a record is a call of a callback. -/
theorem CallbackTrans.calls {s s' : Completion T.Inner κ} {m m' : CallbackPc T.Work κ}
    (h : CallbackTrans T callable s m s' m')
    (hchange : s'.called ≠ s.called ∨ s'.entered ≠ s.entered) : m.afterDone = true := by
  cases h with
  | call | callFails | retry => rfl
  | _ => exact (hchange.elim (· rfl) (· rfl)).elim

/-- The thread is about to take the queue, if the task is done. -/
def CallbackPc.willTake : CallbackPc T.Work κ → Bool
  | .draining | .taking | .rechecking => true
  | _ => false

/-- A done task with callbacks in its queue has a thread that will take them. -/
theorem reachable_drainer (hT : T.Lawful)
    (h : (completionMachine T callable ι).Reachable anyStep c)
    (hdone : T.done c.shared.inner = true) :
    c.shared.callbacks = [] ∨ ∃ t, (c.loc t).willTake = true := by
  revert hdone
  refine invariant (J := fun c => hT.Inv c.shared.inner (works c))
    (I := fun c => T.done c.shared.inner = true → c.shared.callbacks = [] ∨
      ∃ t, (c.loc t).willTake = true) h (fun _ hc => reachable_lawful hT hc) (fun _ => .inl rfl) ?_
  intro c t a s' m m' hJ hI _ hloc hp hdone
  rw [exists_update]
  have split := fun hd => (hI hd).imp id (exists_split (p := CallbackPc.willTake) t).1
  rcases completionStep_cases hp with ⟨p, w, ⟨d, n⟩, ht, hm, hr, hadv⟩ | htr
  · have hw : works c p = some w := by rw [works, ← ht, hloc, hm]; rfl
    rcases n with w' | _ | _ <;> cases hadv
    · have := (hT.done_iff (hT.step hJ hw hr)).1 hdone p
      simp at this
    · have := hT.last hJ hw hr
      rw [hdone] at this
      cases this
    · exact .inr (.inl rfl)
  · rw [htr.inner.1] at hdone
    rw [hloc] at split
    cases htr with
    | push | recheckDone | lockDrain => exact .inr (.inl rfl)
    | recheck hnd => exact absurd hdone hnd
    | take => exact .inl rfl
    | _ => simpa [CallbackPc.willTake] using split hdone

/-! ## What a callback adds to a record -/

/-- The callbacks that a thread still has to call, or to put into the queue. -/
def CallbackPc.holds : CallbackPc T.Work κ → List κ
  | .locking cb | .checking cb | .pushing cb => [cb]
  | .dropping queue | .calling queue | .retrying _ queue => queue
  | _ => []

/-- The callback that a thread is about to call a second time. -/
def CallbackPc.retries : CallbackPc T.Work κ → List κ
  | .retrying cb _ => [cb]
  | _ => []

/-- What a call without arguments adds to the records: a call, and the body if it is entered. -/
def adds0 (callable : κ → Callable) (cb : κ) : Multiset κ × Multiset κ :=
  ({cb}, (enters0 callable cb : Multiset κ))

/-- What the second call of the wrapper adds to them. -/
def adds1 (callable : κ → Callable) (cb : κ) : Multiset κ × Multiset κ :=
  (0, (enters1 callable cb : Multiset κ))

/-- What the wrapped callback adds to them, over its whole call. -/
def adds (callable : κ → Callable) (cb : κ) : Multiset κ × Multiset κ :=
  adds0 callable cb + if (callable cb).fallsBack then adds1 callable cb else 0

/-- What has been added to the records. -/
def Completion.added {D : Type} (s : Completion D κ) : Multiset κ × Multiset κ :=
  ((s.called : Multiset κ), (s.entered : Multiset κ))

/-- What has been added to the records, and what the callbacks in the queue will still add. -/
def Completion.credit {D : Type} (callable : κ → Callable) (s : Completion D κ) :
    Multiset κ × Multiset κ :=
  s.added + (s.callbacks.map (adds callable)).sum

/-- What a thread will still add to the records. -/
def CallbackPc.owes (callable : κ → Callable) (m : CallbackPc T.Work κ) : Multiset κ × Multiset κ :=
  (m.holds.map (adds callable)).sum + (m.retries.map (adds1 callable)).sum

/-- A call of a wrapped callback, and what its first call adds. -/
theorem Completion.added_call {D : Type} (s : Completion D κ) (cb : κ) :
    Completion.added
        { s with called := cb :: s.called, entered := enters0 callable cb ++ s.entered } =
      adds0 callable cb + s.added := by
  simp only [Completion.added, adds0, Prod.mk_add_mk, Multiset.coe_add, Multiset.singleton_add,
    Multiset.cons_coe]

/-- A second call, and what it adds. -/
theorem Completion.added_retry {D : Type} (s : Completion D κ) (cb : κ) :
    Completion.added { s with entered := enters1 callable cb ++ s.entered } =
      adds1 callable cb + s.added := by
  simp only [Completion.added, adds1, Prod.mk_add_mk, Multiset.coe_add, zero_add]

/-- A step of a future moves nothing. -/
theorem Completion.advance_added {s s' : Completion T.Inner κ} {d : T.Inner} {w : T.Work}
    {n : T.Work ⊕ Bool} {m' : CallbackPc T.Work κ} (h : s.advance d n = (s', m')) :
    s'.added = s.added ∧
      m'.owes callable = (CallbackPc.working w : CallbackPc T.Work κ).owes callable := by
  rcases n with w' | _ | _ <;> cases h <;> exact ⟨rfl, rfl⟩

/-- A step of a thread that is no future at work moves what its callbacks add between the records,
the queue and the thread; a registration brings the callback in. -/
theorem CallbackTrans.added {s s' : Completion T.Inner κ} {m m' : CallbackPc T.Work κ}
    (h : CallbackTrans T callable s m s' m') :
    s'.credit callable + m'.owes callable +
        (s.registered.map (adds callable)).sum =
      s.credit callable + m.owes callable +
        (s'.registered.map (adds callable)).sum := by
  cases h with
  | call hcb | callFails hcb =>
    rw [Completion.credit, Completion.added_call]
    simp only [Completion.credit, CallbackPc.owes, CallbackPc.holds, CallbackPc.retries,
      List.map_cons, List.sum_cons, List.map_nil, List.sum_nil, adds, hcb, if_true,
      Bool.false_eq_true, if_false]
    abel
  | retry =>
    rw [Completion.credit, Completion.added_retry]
    simp only [Completion.credit, CallbackPc.owes, CallbackPc.holds, CallbackPc.retries,
      List.map_cons, List.map_nil, List.sum_cons, List.sum_nil]
    abel
  | register | push =>
    simp only [Completion.credit, Completion.added, CallbackPc.owes, CallbackPc.holds,
      CallbackPc.retries, List.map_append, List.sum_append, List.map_cons, List.map_nil,
      List.sum_cons, List.sum_nil]
    abel
  | take =>
    simp only [Completion.credit, Completion.added, CallbackPc.owes, CallbackPc.holds,
      CallbackPc.retries, List.map_nil, List.sum_nil]
    abel
  | _ => rfl

/-- What has been added to the records, and what will still be added for the callbacks in the queue
and those that threads hold, is what all registered callbacks add. -/
theorem reachable_added [Fintype ι] (h : (completionMachine T callable ι).Reachable anyStep c) :
    total (Completion.credit callable) (CallbackPc.owes callable) c =
      (c.shared.registered.map (adds callable)).sum := by
  refine invariant (J := fun _ => True) (I := fun c =>
    total (Completion.credit callable) (CallbackPc.owes callable) c =
      (c.shared.registered.map (adds callable)).sum) h (fun _ _ => trivial) ?_ ?_
  · have hzero : ∀ t : Fin T.futures ⊕ ι, (startPc T (κ := κ) t).owes callable = 0 := by
      rintro (p | i) <;> rfl
    simp [total, newTask, hzero, Completion.credit, Completion.added]
  · intro c t a s' m m' _ hI _ hloc hp
    have hbal : s'.credit callable + m'.owes callable +
          (c.shared.registered.map (adds callable)).sum =
        c.shared.credit callable + (c.loc t).owes callable +
          (s'.registered.map (adds callable)).sum := by
      rw [hloc]
      rcases completionStep_cases hp with ⟨p, w, r, -, rfl, -, hadv⟩ | htr
      · obtain ⟨-, hcb, hreg, -, -, -⟩ := Completion.advance_eq hadv
        have hboth : s'.added = c.shared.added ∧
            m'.owes callable = (CallbackPc.working w : CallbackPc T.Work κ).owes callable :=
          Completion.advance_added hadv
        obtain ⟨hadded, howes⟩ := hboth
        rw [Completion.credit, hadded, howes, hcb, hreg]
        rfl
      · exact htr.added
    have htotal := total_step_transfer hbal
    rw [hI, add_comm] at htotal
    exact add_left_cancel htotal

/-- The threads are at rest: the futures have finished, and no call of `add_done_callback` is in
progress. -/
def AtRest (c : Config (Completion T.Inner κ) (CallbackPc T.Work κ) (Fin T.futures ⊕ ι)) : Prop :=
  ∀ t, c.loc t = .idle

/-- At rest the task is done, and all that the registered callbacks add has been added. -/
theorem added_of_atRest [Fintype ι] (hT : T.Lawful)
    (h : (completionMachine T callable ι).Reachable anyStep c) (hrest : AtRest c) :
    T.done c.shared.inner = true ∧
      c.shared.added = (c.shared.registered.map (adds callable)).sum := by
  have hdone : T.done c.shared.inner = true := by
    refine (hT.done_iff (reachable_lawful hT h)).2 fun p => ?_
    rw [works, hrest]
    rfl
  have hnil : c.shared.callbacks = [] := by
    refine (reachable_drainer hT h hdone).resolve_right ?_
    rintro ⟨t, ht⟩
    rw [hrest] at ht
    cases ht
  refine ⟨hdone, ?_⟩
  have hzero : ∀ t, (c.loc t).owes callable = 0 := fun t => by rw [hrest]; rfl
  rw [← reachable_added h]
  simp [total, Completion.credit, hnil, hzero]

end

end Hypertile
