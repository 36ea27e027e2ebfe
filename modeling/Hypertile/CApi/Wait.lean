import Hypertile.CApi.Task

/-!
# Polling and waiting

A caller that parks has its unparker in the list, or the worker has it in the part of the list that
it has still to unpark, or the parker has a token (`SpawnShared.Reg`); when the worker has taken the
list nobody is about to push, as the list is pushed to and taken under its lock. A caller that reads
the result finds the task done, and so finds the result that the worker stored (`spawn_poll_wait`).
-/

namespace Hypertile

open Machine Machine.Threads

variable {ι : Type} [DecidableEq ι] {out : Except String Ptr}

/-! ## The steps -/

/-- `SpawnTrans out s t m s' m'`: thread `t` at `m` can take a step from `s`, to `s'` and `m'`. -/
inductive SpawnTrans (out : Except String Ptr) (s : SpawnShared ι) :
    Unit ⊕ ι → SpawnPc ι → SpawnShared ι → SpawnPc ι → Prop
  | work {u : Unit} : SpawnTrans out s (.inl u) .running s .storing
  | store {u : Unit} :
      SpawnTrans out s (.inl u) .storing { s with result := some out } .publishing
  | publish {u : Unit} :
      SpawnTrans out s (.inl u) .publishing { s with done := true } .lockList
  | lockList {u : Unit} (hfree : s.locked = false) :
      SpawnTrans out s (.inl u) .lockList { s with locked := true } .taking
  | take {u : Unit} :
      SpawnTrans out s (.inl u) .taking { s with unparkers := [] } (.unlockList s.unparkers)
  | unlockList {u : Unit} {waiters : List ι} :
      SpawnTrans out s (.inl u) (.unlockList waiters) { s with locked := false }
        (.unparking waiters)
  | unpark {u : Unit} {i : ι} {waiters : List ι} :
      SpawnTrans out s (.inl u) (.unparking (i :: waiters))
        { s with token := Function.update s.token i true } (.unparking waiters)
  | finish {u : Unit} : SpawnTrans out s (.inl u) (.unparking []) s .finished
  | call {i : ι} {call : TaskCall} : SpawnTrans out s (.inr i) .idle s (.load call)
  | callAgain {i : ι} {call last : TaskCall} {res : HypertileStatus} {o : Option Ptr} :
      SpawnTrans out s (.inr i) (.returned last res o) s (.load call)
  | loadDone {i : ι} {call : TaskCall} (hdone : s.done = true) :
      SpawnTrans out s (.inr i) (.load call) s (.read call)
  | load {i : ι} {call : TaskCall} (hdone : s.done = false) :
      SpawnTrans out s (.inr i) (.load call) s (.notDone call)
  | newParker {i : ι} {call : TaskCall} :
      SpawnTrans out s (.inr i) (.newParker call)
        { s with token := Function.update s.token i false } (.lockPush call)
  | lockPush {i : ι} {call : TaskCall} (hfree : s.locked = false) :
      SpawnTrans out s (.inr i) (.lockPush call) { s with locked := true } (.recheck call)
  | recheckDone {i : ι} {call : TaskCall} (hdone : s.done = true) :
      SpawnTrans out s (.inr i) (.recheck call) s (.unlockPush call)
  | recheck {i : ι} {call : TaskCall} (hdone : s.done = false) :
      SpawnTrans out s (.inr i) (.recheck call) s (.push call)
  | push {i : ι} {call : TaskCall} :
      SpawnTrans out s (.inr i) (.push call) { s with unparkers := s.unparkers ++ [i] }
        (.unlockPush call)
  | unlockPush {i : ι} {call : TaskCall} :
      SpawnTrans out s (.inr i) (.unlockPush call) { s with locked := false } (.check call)
  | checkDone {i : ι} {call : TaskCall} (hdone : s.done = true) :
      SpawnTrans out s (.inr i) (.check call) s (.read call)
  | check {i : ι} {call : TaskCall} (hdone : s.done = false) :
      SpawnTrans out s (.inr i) (.check call) s (.park call)
  | park {i : ι} {call : TaskCall} (htoken : s.token i = true) :
      SpawnTrans out s (.inr i) (.park call)
        { s with token := Function.update s.token i false } (.check call)
  | read {i : ι} {call : TaskCall} :
      SpawnTrans out s (.inr i) (.read call) s
        (.returned call (readResult s.result call).1 (readResult s.result call).2)

/-- What a step of the worker can do. -/
theorem workerStep_trans {u : Unit} {s s' : SpawnShared ι} {m m' : SpawnPc ι} {a : SpawnAct}
    (h : workerStep out s m a = some (s', m')) : SpawnTrans out s (.inl u) m s' m' := by
  cases a with
  | call call =>
    cases m with
    | unparking waiters => cases waiters <;> cases h
    | _ => cases h
  | go =>
    cases m with
    | running => cases h; exact .work
    | storing => cases h; exact .store
    | publishing => cases h; exact .publish
    | lockList =>
      simp only [workerStep] at h
      split at h
      · cases h
      · next hfree => cases h; exact .lockList (Bool.eq_false_iff.2 hfree)
    | taking => cases h; exact .take
    | unlockList waiters => cases h; exact .unlockList
    | unparking waiters =>
      cases waiters with
      | nil => cases h; exact .finish
      | cons i waiters => cases h; exact .unpark
    | _ => cases h

/-- What a step of a caller can do. -/
theorem callerStep_trans {i : ι} {s s' : SpawnShared ι} {m m' : SpawnPc ι} {a : SpawnAct}
    (h : callerStep i s m a = some (s', m')) : SpawnTrans out s (.inr i) m s' m' := by
  cases a with
  | call call =>
    cases m with
    | idle => cases h; exact .call
    | returned last res o => cases h; exact .callAgain
    | _ => cases h
  | go =>
    cases m with
    | load call =>
      simp only [callerStep, Option.some.injEq, Prod.mk.injEq] at h
      obtain ⟨rfl, rfl⟩ := h
      split
      · next hdone => exact .loadDone hdone
      · next hdone => exact .load (Bool.eq_false_iff.2 hdone)
    | newParker call => cases h; exact .newParker
    | lockPush call =>
      simp only [callerStep] at h
      split at h
      · cases h
      · next hfree => cases h; exact .lockPush (Bool.eq_false_iff.2 hfree)
    | recheck call =>
      simp only [callerStep, Option.some.injEq, Prod.mk.injEq] at h
      obtain ⟨rfl, rfl⟩ := h
      split
      · next hdone => exact .recheckDone hdone
      · next hdone => exact .recheck (Bool.eq_false_iff.2 hdone)
    | push call => cases h; exact .push
    | unlockPush call => cases h; exact .unlockPush
    | check call =>
      simp only [callerStep, Option.some.injEq, Prod.mk.injEq] at h
      obtain ⟨rfl, rfl⟩ := h
      split
      · next hdone => exact .checkDone hdone
      · next hdone => exact .check (Bool.eq_false_iff.2 hdone)
    | park call =>
      simp only [callerStep] at h
      split at h
      · next htoken => cases h; exact .park htoken
      · cases h
    | read call => cases h; exact .read
    | _ => cases h

/-- What a step can do. -/
theorem spawnStep_trans {t : Unit ⊕ ι} {s s' : SpawnShared ι} {m m' : SpawnPc ι} {a : SpawnAct}
    (h : spawnStep out t s m a = some (s', m')) : SpawnTrans out s t m s' m' := by
  cases t with
  | inl u => exact workerStep_trans h
  | inr i => exact callerStep_trans h

/-! ## What a thread knows -/

/-- The thread holds the lock of the list. -/
def SpawnPc.holds : SpawnPc ι → Bool
  | .taking | .unlockList _ | .recheck _ | .push _ | .unlockPush _ => true
  | _ => false

/-- The callers that the worker has still to unpark. -/
def SpawnPc.waiters : SpawnPc ι → List ι
  | .unlockList waiters | .unparking waiters => waiters
  | _ => []

/-- The worker has taken the list. -/
def SpawnPc.taken : SpawnPc ι → Bool
  | .unlockList _ | .unparking _ | .finished => true
  | _ => false

/-- The call is given `out_result`. -/
def TaskCall.writes : TaskCall → Bool
  | .poll b | .wait b => b

/-- What a call on a done task returns and writes: `Ok` and the value, or `ErrPanic`. -/
def taskAnswer (out : Except String Ptr) (call : TaskCall) : HypertileStatus × Option Ptr :=
  match out with
  | .ok val => (.ok, if call.writes then some val else none)
  | .error _ => (.errPanic, none)

/-- A call that reads a result answers so. -/
theorem readResult_some (out : Except String Ptr) (call : TaskCall) :
    readResult (some out) call = taskAnswer out call := by
  cases call <;> cases out <;> rfl

/-- What the place of the worker says about the result and the flag. -/
def SpawnShared.WorkerPlace (out : Except String Ptr) (s : SpawnShared ι) : SpawnPc ι → Prop
  | .running | .storing => s.result = none ∧ s.done = false
  | .publishing => s.result = some out ∧ s.done = false
  | .lockList | .taking | .unlockList _ | .unparking _ | .finished =>
    s.result = some out ∧ s.done = true
  | _ => False

/-- A caller that parks will be unparked, by the worker at `w` or by one that takes the list, or has
its token. -/
def SpawnShared.Reg (s : SpawnShared ι) (w : SpawnPc ι) (i : ι) : Prop :=
  i ∈ s.unparkers ∨ i ∈ w.waiters ∨ s.token i = true

/-- What the place of the caller `i` says, the worker being at `w`. -/
def SpawnShared.CallerPlace (out : Except String Ptr) (s : SpawnShared ι) (w : SpawnPc ι) (i : ι) :
    SpawnPc ι → Prop
  | .unlockPush _ | .check _ => s.done = true ∨ s.Reg w i
  | .park _ => s.Reg w i
  | .push _ => w.taken = false
  | .read _ => s.done = true
  | .returned call res o => (res, o) = taskAnswer out call ∨
      ∃ b, call = .poll b ∧ res = .pending
  | .idle | .load _ | .newParker _ | .lockPush _ | .recheck _ => True
  | _ => False

/-- The invariant of a task whose threads stand at `f`. -/
structure SpawnInv (out : Except String Ptr) (s : SpawnShared ι) (f : Unit ⊕ ι → SpawnPc ι) :
    Prop where
  worker : s.WorkerPlace out (f (.inl ()))
  caller : ∀ i, s.CallerPlace out (f (.inl ())) i (f (.inr i))
  lock : Mutex s.locked SpawnPc.holds f
  held : s.locked = true → ∃ t, (f t).holds = true
  taken : (f (.inl ())).taken = true → s.unparkers = []
  token : ∀ i, s.token i = true → s.done = true

section
variable {s s' : SpawnShared ι} {w w' m m' : SpawnPc ι} {i j : ι} {t : Unit ⊕ ι}

omit [DecidableEq ι] in
/-- A worker that has taken the list has set `done` and stored the result. -/
theorem SpawnShared.WorkerPlace.of_taken (h : s.WorkerPlace out w) (ht : w.taken = true) :
    s.result = some out ∧ s.done = true := by
  cases w with
  | unlockList | unparking | finished => exact h
  | _ => cases ht

omit [DecidableEq ι] in
/-- A task that is done has its result. -/
theorem SpawnShared.WorkerPlace.of_done (h : s.WorkerPlace out w) (hdone : s.done = true) :
    s.result = some out := by
  cases w with
  | running | storing | publishing =>
    rw [h.2] at hdone
    cases hdone
  | lockList | taking | unlockList | unparking | finished => exact h.1
  | _ => exact h.elim

/-- A step of the worker keeps what its place says. -/
theorem SpawnTrans.worker_own {u : Unit} (h : SpawnTrans out s (.inl u) m s' m')
    (hw : s.WorkerPlace out m) : s'.WorkerPlace out m' := by
  cases h with
  | store => exact ⟨rfl, hw.2⟩
  | publish => exact ⟨hw.1, rfl⟩
  | _ => exact hw

/-- A step of a caller leaves the result and the flag as they are. -/
theorem SpawnTrans.caller_frame (h : SpawnTrans out s (.inr i) m s' m') :
    s'.result = s.result ∧ s'.done = s.done := by
  cases h <;> exact ⟨rfl, rfl⟩

omit [DecidableEq ι] in
/-- What the place of the worker says is about the result and the flag only. -/
theorem SpawnShared.WorkerPlace.congr (h : s.WorkerPlace out w) (hres : s'.result = s.result)
    (hdone : s'.done = s.done) : s'.WorkerPlace out w := by
  cases w with
  | running | storing | publishing | lockList | taking | unlockList | unparking | finished =>
    simpa only [SpawnShared.WorkerPlace, hres, hdone] using h
  | _ => exact h.elim

/-- A step of the worker keeps `done` set, and keeps a caller registered. -/
theorem SpawnTrans.worker_frame {u : Unit} (h : SpawnTrans out s (.inl u) m s' m') :
    (s.done = true → s'.done = true) ∧ (s.Reg m i → s'.Reg m' i) := by
  cases h with
  | publish => exact ⟨fun _ => rfl, id⟩
  | take =>
    refine ⟨id, fun hr => ?_⟩
    rcases hr with hr | hr | hr
    · exact .inr (.inl hr)
    · cases hr
    · exact .inr (.inr hr)
  | @unpark u j waiters =>
    refine ⟨id, fun hr => ?_⟩
    have htoken : ∀ k, s.token k = true ∨ k = j →
        Function.update s.token j true k = true := by
      intro k hk
      by_cases hkj : k = j
      · rw [hkj, Function.update_self]
      · rw [Function.update_of_ne hkj]
        exact hk.resolve_right hkj
    rcases hr with hr | hr | hr
    · exact .inl hr
    · rcases List.mem_cons.1 hr with rfl | hr
      · exact .inr (.inr (htoken _ (.inr rfl)))
      · exact .inr (.inl hr)
    · exact .inr (.inr (htoken _ (.inl hr)))
  | _ => exact ⟨id, id⟩

/-- A step of the worker keeps what the place of a caller says, where no caller is about to push
while the worker takes the list. -/
theorem SpawnTrans.worker_caller {u : Unit} (h : SpawnTrans out s (.inl u) m s' m')
    (hpush : m.holds = true → w'.holds = false) (hc : s.CallerPlace out m i w') :
    s'.CallerPlace out m' i w' := by
  obtain ⟨hdone, hreg⟩ := h.worker_frame (i := i)
  cases w' with
  | unlockPush | check => exact hc.imp hdone hreg
  | park => exact hreg hc
  | read => exact hdone hc
  | push =>
    cases h with
    | take => cases hpush rfl
    | unlockList | unpark | finish => cases hc
    | _ => rfl
  | returned call res o => exact hc
  | idle | load | newParker | lockPush | recheck => trivial
  | _ => exact hc.elim

/-- A step of a caller keeps the other callers registered. -/
theorem SpawnTrans.caller_reg (h : SpawnTrans out s (.inr i) m s' m') (hj : j ≠ i)
    (hr : s.Reg w j) : s'.Reg w j := by
  cases h with
  | newParker | park =>
    rcases hr with hr | hr | hr
    · exact .inl hr
    · exact .inr (.inl hr)
    · refine .inr (.inr ?_)
      show Function.update s.token i false j = true
      rw [Function.update_of_ne hj]
      exact hr
  | push =>
    rcases hr with hr | hr | hr
    · exact .inl (List.mem_append_left _ hr)
    · exact .inr (.inl hr)
    · exact .inr (.inr hr)
  | _ => exact hr

/-- A step of a caller keeps what the place of another caller says. -/
theorem SpawnTrans.caller_other (h : SpawnTrans out s (.inr i) m s' m') (hj : j ≠ i)
    (hc : s.CallerPlace out w j w') : s'.CallerPlace out w j w' := by
  obtain ⟨-, hdone⟩ := h.caller_frame
  cases w' with
  | unlockPush | check => exact hc.imp (hdone ▸ ·) (h.caller_reg hj)
  | park => exact h.caller_reg hj hc
  | read => exact hdone.trans hc
  | push => exact hc
  | returned call res o => exact hc
  | idle | load | newParker | lockPush | recheck => trivial
  | _ => exact hc.elim

/-- A step of a caller keeps what its own place says. -/
theorem SpawnTrans.caller_own (h : SpawnTrans out s (.inr i) m s' m')
    (hw : s.WorkerPlace out w) (htoken : s.token i = true → s.done = true)
    (hc : s.CallerPlace out w i m) : s'.CallerPlace out w i m' := by
  cases h with
  | call | callAgain | newParker | lockPush => trivial
  | loadDone hdone | checkDone hdone => exact hdone
  | @load i call hdone =>
    cases call with
    | poll b => exact .inr ⟨b, rfl, rfl⟩
    | wait b => trivial
  | recheckDone hdone => exact .inl hdone
  | recheck hdone =>
    refine Bool.eq_false_iff.2 fun ht => ?_
    rw [(hw.of_taken ht).2] at hdone
    cases hdone
  | push => exact .inr (.inl (List.mem_append_right _ (List.mem_singleton.2 rfl)))
  | unlockPush => exact hc
  | check hdone =>
    refine hc.resolve_left fun hd => ?_
    rw [hd] at hdone
    cases hdone
  | park htok => exact .inl (htoken htok)
  | read =>
    have hdone : s.done = true := hc
    rw [hw.of_done hdone]
    exact .inl (readResult_some ..)

/-- What a step does with the lock of the list. -/
theorem SpawnTrans.lock_trans (h : SpawnTrans out s t m s' m')
    (hl : m.holds = true → s.locked = true) :
    (m'.holds = true → s'.locked = true ∧ (m.holds = true ∨ s.locked = false)) ∧
    (m.holds = true → m'.holds = false → s'.locked = false) ∧
    (m.holds = false → m'.holds = false → s'.locked = s.locked) := by
  cases h with
  | lockList hfree | lockPush hfree => exact ⟨fun _ => ⟨rfl, .inr hfree⟩, nofun, nofun⟩
  | unlockList | unlockPush => exact ⟨nofun, fun _ _ => rfl, nofun⟩
  | take | recheckDone | recheck | push => exact ⟨fun _ => ⟨hl rfl, .inl rfl⟩, nofun, nofun⟩
  | @load i call hdone =>
    cases call with
    | poll | wait => exact ⟨nofun, nofun, fun _ _ => rfl⟩
  | _ => exact ⟨nofun, nofun, fun _ _ => rfl⟩

omit [DecidableEq ι] in
/-- The invariant holds at the start. -/
theorem SpawnInv.init : SpawnInv out (spawnStart ι).shared (spawnStart ι).loc where
  worker := ⟨rfl, rfl⟩
  caller _ := trivial
  lock := .free fun t => by cases t <;> rfl
  held := nofun
  taken := nofun
  token := nofun

/-- A step of the worker keeps the invariant. -/
theorem SpawnInv.worker_step {f : Unit ⊕ ι → SpawnPc ι} {u : Unit} (hI : SpawnInv out s f)
    (h : SpawnTrans out s (.inl u) (f (.inl u)) s' m') :
    SpawnInv out s' (Function.update f (.inl u) m') := by
  have hl := h.lock_trans hI.lock.locked_of_holds
  refine ⟨?_, fun i => ?_, hI.lock.step hl.1 hl.2.2, held_step hI.held hl.2.1 hl.2.2, ?_, ?_⟩
  · rw [Function.update_self]
    exact h.worker_own hI.worker
  · rw [Function.update_self, Function.update_of_ne Sum.inr_ne_inl]
    refine h.worker_caller (fun hm => Bool.eq_false_iff.2 fun hi => ?_) (hI.caller i)
    cases hI.lock.unique hm hi
  · rw [Function.update_self]
    intro ht
    have htaken := hI.taken
    generalize f (.inl u) = m at h htaken
    cases h with
    | take => rfl
    | unlockList | unpark | finish => exact htaken rfl
    | _ => cases ht
  · have hworker := hI.worker
    generalize f (.inl u) = m at h hworker
    cases h with
    | publish => exact fun _ _ => rfl
    | unpark => exact fun _ _ => hworker.2
    | _ => exact hI.token

/-- A step of a caller keeps the invariant. -/
theorem SpawnInv.caller_step {f : Unit ⊕ ι → SpawnPc ι} (hI : SpawnInv out s f)
    (h : SpawnTrans out s (.inr i) (f (.inr i)) s' m') :
    SpawnInv out s' (Function.update f (.inr i) m') := by
  have hl := h.lock_trans hI.lock.locked_of_holds
  obtain ⟨hres, hdone⟩ := h.caller_frame
  refine ⟨?_, fun j => ?_, hI.lock.step hl.1 hl.2.2, held_step hI.held hl.2.1 hl.2.2, ?_, ?_⟩
  · rw [Function.update_of_ne Sum.inl_ne_inr]
    exact hI.worker.congr hres hdone
  · rw [Function.update_of_ne Sum.inl_ne_inr]
    by_cases hj : j = i
    · subst hj
      rw [Function.update_self]
      exact h.caller_own hI.worker (hI.token j) (hI.caller j)
    · rw [Function.update_of_ne (Sum.inr_injective.ne hj)]
      exact h.caller_other hj (hI.caller j)
  · rw [Function.update_of_ne Sum.inl_ne_inr]
    intro ht
    have hplace := hI.caller i
    generalize f (.inr i) = m at h hplace
    cases h with
    | push =>
      rw [show (f (.inl ())).taken = false from hplace] at ht
      cases ht
    | _ => exact hI.taken ht
  · intro j hj
    rw [hdone]
    refine hI.token j ?_
    generalize f (.inr i) = m at h
    cases h with
    | newParker | park =>
      by_cases hji : j = i
      · subst hji
        simp only [Function.update_self] at hj
        cases hj
      · simpa only [Function.update_of_ne hji] using hj
    | _ => exact hj

end

/-- The invariant holds in every state reached. -/
theorem reachable_spawnInv {c : Config (SpawnShared ι) (SpawnPc ι) (Unit ⊕ ι)}
    (h : (spawnMachine out).Reachable anyStep c) : SpawnInv out c.shared c.loc := by
  refine h.invariant (I := fun c => SpawnInv out c.shared c.loc) .init ?_
  rintro c ⟨t, a⟩ c' hI - hst
  obtain ⟨s', m', hp, rfl⟩ := step_iff.1 hst
  cases t with
  | inl u => exact hI.worker_step (spawnStep_trans hp)
  | inr i => exact hI.caller_step (spawnStep_trans hp)

/-! ## Progress -/

/-- The caller is in a call. -/
def SpawnPc.calling : SpawnPc ι → Bool
  | .idle | .returned _ _ _ => false
  | _ => true

/-- A bound on the steps that a caller has still to take in its call once the task is done. -/
def SpawnPc.left : SpawnPc ι → ℕ
  | .newParker _ => 7
  | .lockPush _ => 6
  | .recheck _ => 5
  | .push _ => 4
  | .unlockPush _ | .park _ => 3
  | .load _ | .check _ => 2
  | .read _ => 1
  | _ => 0

section
variable {s s' : SpawnShared ι} {f : Unit ⊕ ι → SpawnPc ι} {m m' : SpawnPc ι} {i : ι}
  {t : Unit ⊕ ι}

/-- Once the task is done, each step of a call brings it nearer to its end. -/
theorem SpawnTrans.left_lt (h : SpawnTrans out s (.inr i) m s' m') (hdone : s.done = true)
    (hcalling : m.calling = true) : m'.left < m.left := by
  cases h with
  | call | callAgain => cases hcalling
  | load hnot | recheck hnot | check hnot =>
    rw [hdone] at hnot
    cases hnot
  | _ => simp only [SpawnPc.left, Nat.reduceLT]

/-- A step leaves the flag set. -/
theorem SpawnTrans.done_mono (h : SpawnTrans out s t m s' m') (hdone : s.done = true) :
    s'.done = true := by
  cases h with
  | publish => rfl
  | _ => exact hdone

/-- Thread `t` can take its next step. -/
def canGo (out : Except String Ptr) (s : SpawnShared ι) (f : Unit ⊕ ι → SpawnPc ι)
    (t : Unit ⊕ ι) : Prop := (spawnStep out t s (f t) .go).isSome = true

namespace SpawnInv

/-- The thread that holds the lock of the list can go on. -/
theorem canGo_of_holds (hI : SpawnInv out s f) (ht : (f t).holds = true) : canGo out s f t := by
  cases t with
  | inl u =>
    have hplace : s.WorkerPlace out (f (.inl u)) := hI.worker
    unfold canGo
    generalize f (.inl u) = m at ht hplace
    cases m with
    | taking | unlockList => rfl
    | recheck | push | unlockPush => exact hplace.elim
    | _ => cases ht
  | inr i =>
    have hplace := hI.caller i
    unfold canGo
    generalize f (.inr i) = m at ht hplace
    cases m with
    | recheck | push | unlockPush => rfl
    | taking | unlockList => exact hplace.elim
    | _ => cases ht

/-- While the worker has not finished, it can go on, or the thread that holds the lock can. -/
theorem canGo_worker (hI : SpawnInv out s f) (hw : f (.inl ()) ≠ .finished) :
    ∃ t, canGo out s f t := by
  have hplace := hI.worker
  by_cases hlock : f (.inl ()) = .lockList ∧ s.locked = true
  · obtain ⟨t, ht⟩ := hI.held hlock.2
    exact ⟨t, hI.canGo_of_holds ht⟩
  refine ⟨.inl (), ?_⟩
  unfold canGo
  generalize f (.inl ()) = m at hw hplace hlock
  cases m with
  | running | storing | publishing | taking | unlockList => rfl
  | lockList =>
    have hfree : s.locked = false := Bool.eq_false_iff.2 fun hl => hlock ⟨rfl, hl⟩
    show (if s.locked = true then none else _ : Option (SpawnShared ι × SpawnPc ι)).isSome = true
    rw [hfree]
    rfl
  | unparking waiters => cases waiters <;> rfl
  | finished => exact absurd rfl hw
  | _ => exact hplace.elim

omit [DecidableEq ι] in
/-- Once the worker has finished, a caller that is parked has its token. -/
theorem token_of_finished (hI : SpawnInv out s f) (hw : f (.inl ()) = .finished)
    {call : TaskCall} (hpark : f (.inr i) = .park call) : s.token i = true := by
  have hreg := hI.caller i
  have hempty := hI.taken
  rw [hpark, hw] at hreg
  rw [hw] at hempty
  rcases hreg with hr | hr | hr
  · rw [hempty rfl] at hr
    cases hr
  · cases hr
  · exact hr

/-- While a call is under way, it can go on, or the thread that it waits for can. -/
theorem progress (hI : SpawnInv out s f) (hi : (f (.inr i)).calling = true) :
    ∃ t, canGo out s f t := by
  by_cases hw : f (.inl ()) ≠ .finished
  · exact hI.canGo_worker hw
  by_cases hlock : s.locked = true
  · obtain ⟨t, ht⟩ := hI.held hlock
    exact ⟨t, hI.canGo_of_holds ht⟩
  have htoken {call : TaskCall} (hpark : f (.inr i) = .park call) : s.token i = true :=
    hI.token_of_finished (not_not.1 hw) hpark
  have hplace := hI.caller i
  refine ⟨.inr i, ?_⟩
  unfold canGo
  generalize f (.inr i) = m at hi hplace htoken
  cases m with
  | load | newParker | recheck | push | unlockPush | check | read => rfl
  | lockPush call =>
    show (if s.locked = true then none else _ : Option (SpawnShared ι × SpawnPc ι)).isSome = true
    rw [if_neg hlock]
    rfl
  | park call =>
    show (if s.token i = true then _ else none : Option (SpawnShared ι × SpawnPc ι)).isSome = true
    rw [if_pos (htoken rfl)]
    rfl
  | idle | returned => cases hi
  | _ => exact hplace.elim

/-- A step by which a call returns finds the task done and answers with the outcome, or is that of a
poll that finds it not done. -/
theorem returns (hI : SpawnInv out s f) (h : SpawnTrans out s (.inr i) (f (.inr i)) s' m')
    {call : TaskCall} {res : HypertileStatus} {o : Option Ptr} (hm : m' = .returned call res o) :
    s.done = true ∧ (res, o) = taskAnswer out call ∨
      s.done = false ∧ (∃ b, call = .poll b) ∧ res = .pending ∧ o = none := by
  have hplace := hI.caller i
  generalize f (.inr i) = m at h hplace
  cases h with
  | @load j last hnot =>
    cases last with
    | poll b =>
      cases hm
      exact .inr ⟨hnot, ⟨b, rfl⟩, rfl, rfl⟩
    | wait b => cases hm
  | read =>
    have hdone : s.done = true := hplace
    cases hm
    rw [hI.worker.of_done hdone]
    exact .inl ⟨hdone, readResult_some ..⟩
  | _ => cases hm

end SpawnInv

end

/-! ## The calls on a task -/

/-- A task from `hypertile_spawn`, with any number of threads that poll and wait: once the worker
has finished, a waiter that is parked has its token; a wait returns the outcome of the work function
and never `ErrNotInitialized`; a call returns the outcome when it finds the task done, which it
stays, and otherwise it is a poll that returns `Pending`. While a call is under way some thread can
go on, and once the task is done a call takes at most seven more steps. -/
theorem spawn_poll_wait {c : Config (SpawnShared ι) (SpawnPc ι) (Unit ⊕ ι)}
    (h : (spawnMachine out).Reachable anyStep c) :
    (c.loc (.inl ()) = .finished → ∀ i call, c.loc (.inr i) = .park call →
      c.shared.token i = true) ∧
    (∀ i b res o, c.loc (.inr i) = .returned (.wait b) res o →
      (res, o) = taskAnswer out (.wait b) ∧ res ≠ .errNotInitialized) ∧
    (∀ i a c', (spawnMachine out).step c (.inr i, a) = some c' →
      ∀ call res o, c'.loc (.inr i) = .returned call res o →
        c.shared.done = true ∧ (res, o) = taskAnswer out call ∨
          c.shared.done = false ∧ (∃ b, call = .poll b) ∧ res = .pending ∧ o = none) ∧
    (∀ a c', (spawnMachine out).step c a = some c' → c.shared.done = true →
      c'.shared.done = true) ∧
    (∀ i, (c.loc (.inr i)).calling = true →
      ∃ t c', (spawnMachine out).step c (t, .go) = some c') ∧
    (∀ i as c', c.shared.done = true → (spawnMachine out).run c as = some c' →
      (spawnMachine out).AllStates (fun c => (c.loc (.inr i)).calling = true) c as →
        moves (.inr i) as ≤ 7) := by
  have hI := reachable_spawnInv h
  refine ⟨fun hw i call => hI.token_of_finished hw, ?_, ?_, ?_, ?_, ?_⟩
  · intro i b res o hres
    have hplace := hI.caller i
    rw [hres] at hplace
    have hanswer : (res, o) = taskAnswer out (.wait b) := by
      rcases hplace with hanswer | ⟨b', hb, -⟩
      · exact hanswer
      · cases hb
    refine ⟨hanswer, ?_⟩
    rw [show res = (taskAnswer out (.wait b)).1 from congrArg Prod.fst hanswer]
    cases out <;> nofun
  · intro i a c' hst call res o hres
    obtain ⟨s', m', hp, rfl⟩ := step_iff.1 hst
    exact hI.returns (spawnStep_trans hp) (by simpa only [Function.update_self] using hres)
  · rintro ⟨t, a⟩ c' hst hdone
    obtain ⟨s', m', hp, rfl⟩ := step_iff.1 hst
    exact (spawnStep_trans hp).done_mono hdone
  · intro i hi
    obtain ⟨t, ht⟩ := hI.progress hi
    obtain ⟨⟨s', m'⟩, hst⟩ := Option.isSome_iff_exists.1 ht
    exact ⟨t, _, step_iff.2 ⟨s', m', hst, rfl⟩⟩
  · intro i as c' hdone hrun hall
    have hle : (c.loc (.inr i)).left ≤ 7 := by
      cases c.loc (.inr i) <;> simp only [SpawnPc.left, Nat.reduceLeDiff, Nat.zero_le, le_refl]
    refine (moves_le (I := fun c => c.shared.done = true) SpawnPc.calling SpawnPc.left (Sum.inr i)
      ?_ ?_ as hdone hrun hall).trans hle
    · rintro c ⟨t, a⟩ c' hdone hst
      obtain ⟨s', m', hp, rfl⟩ := step_iff.1 hst
      exact (spawnStep_trans hp).done_mono hdone
    · intro c a s' m' hdone hcalling hp _
      exact (spawnStep_trans hp).left_lt hdone hcalling

/-- One caller waits and parks, the work function returns `5`, and the worker unparks the caller. -/
def waitRun : List ((Unit ⊕ Unit) × SpawnAct) :=
  (.inr (), .call (.wait true)) :: List.replicate 7 (.inr (), .go) ++
    List.replicate 8 (.inl (), .go) ++ List.replicate 3 (.inr (), .go)

/-- After that run the caller has the result. -/
theorem spawn_poll_wait_parked :
    ∃ c, (spawnMachine (ι := Unit) (.ok 5)).run (spawnStart Unit) waitRun = some c ∧
      c.loc (.inr ()) = .returned (.wait true) .ok (some 5) ∧
      (HypertileStatus.ok, some 5) = taskAnswer (.ok 5) (.wait true) :=
  ⟨_, rfl, rfl, ((spawn_poll_wait (Machine.reach_of_run waitRun rfl)).2.1 () true .ok (some 5)
    rfl).1⟩

end Hypertile
