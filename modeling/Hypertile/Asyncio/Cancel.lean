import Hypertile.Asyncio.Shutdown

/-!
# Cancelling a submitted call

`submit` hands out a future that it never marks as running, and a task that never looks at the
future: a cancel succeeds as long as the future is pending, also while the function is queued or
runs. The function is started all the same, and `_on_done` raises, its `set_exception` failing as
its `set_result` did. Each future that is not cancelled ends with the outcome of its function, once
(`cancel_honoured`).
-/

namespace Hypertile

open Machine Machine.Threads ExecutorShared

variable {κ R ι : Type} [DecidableEq κ]

/-! ## What a step does to a submission -/

/-- What a step `a` from `m` to `m'` makes of the submission `x` of a future that has been resolved
`n` times. -/
inductive Fate (m : ExecutorPc κ R) (a : ExecutorAct κ R) (m' : ExecutorPc κ R) (fut : κ)
    (x : Submission R) (n : ℕ) (x' : Submission R) : ℕ → Prop
  | same (hstate : x'.state = x.state) (hfn : x'.fn = x.fn) (hcalled : x'.called = x.called) :
      Fate m a m' fut x n x' n
  | spawn (hm : m = .submitSpawn fut) (hstate : x'.state = x.state)
      (hcalled : x'.called = x.called) : Fate m a m' fut x n x' n
  | cancel (ha : a = .cancel fut ∨ a = .pick fut) (hpending : x.state = .pending)
      (hstate : x'.state = .cancelled) (hfn : x'.fn = x.fn)
      (hcalled : x'.called = x.called) : Fate m a m' fut x n x' n
  | run (hfn : x.fn = .queued ∨ x.fn = .running) (hstate : x'.state = x.state)
      (hcalled : x'.called = x.called) : Fate m a m' fut x n x' n
  | call {outcome : R} (hm' : m' = .resolve fut outcome) (hfn : x.fn = .ended outcome)
      (hno : x.called = false) (hstate : x'.state = x.state) (hfn' : x'.fn = x.fn)
      (hcalled : x'.called = true) : Fate m a m' fut x n x' n
  | resolve {outcome : R} (hm : m = .resolve fut outcome) (hpending : x.state = .pending)
      (hstate : x'.state = .finished outcome) (hfn : x'.fn = x.fn)
      (hcalled : x'.called = x.called) : Fate m a m' fut x n x' (n + 1)

/-- What it makes of the submission of any future, if there is one. -/
inductive FutureFate (m : ExecutorPc κ R) (a : ExecutorAct κ R) (m' : ExecutorPc κ R) (fut : κ) :
    Option (Submission R) → ℕ → Option (Submission R) → ℕ → Prop
  | none {n : ℕ} : FutureFate m a m' fut none n none n
  | create {n : ℕ} : FutureFate m a m' fut none n (some .new) n
  | change {x x' : Submission R} {n n' : ℕ} (h : Fate m a m' fut x n x' n') :
      FutureFate m a m' fut (some x) n (some x') n'

section
variable {s s' : ExecutorShared κ R} {m m' : ExecutorPc κ R} {a : ExecutorAct κ R}

/-- A step leaves the submission of a future as it is, creates it, or changes it as is said. -/
theorem ExecutorTrans.fate (h : ExecutorTrans s m a s' m') (fut : κ) :
    FutureFate m a m' fut (s.submission fut) (s.resolved.count fut) (s'.submission fut)
      (s'.resolved.count fut) := by
  have hsame : FutureFate m a m' fut (s.submission fut) (s.resolved.count fut) (s.submission fut)
      (s.resolved.count fut) := by
    cases s.submission fut with
    | none => exact .none
    | some x => exact .change (.same rfl rfl rfl)
  have hset : ∀ {cb x x' n'}, s.submission cb = some x →
      (cb ≠ fut → n' = s.resolved.count fut) →
      (cb = fut → Fate m a m' fut x (s.resolved.count fut) x' n') →
      FutureFate m a m' fut (s.submission fut) (s.resolved.count fut)
        ((s.set cb x').submission fut) n' := by
    intro cb x x' n' hx hn hfate
    by_cases hcb : cb = fut
    · subst hcb
      rw [set_submission_self, hx]
      exact .change (hfate rfl)
    · rw [set_submission_of_ne _ (Ne.symm hcb), hn hcb]
      exact hsame
  cases h with
  | @create cb hflag hnew =>
    by_cases hcb : cb = fut
    · subst hcb
      rw [set_submission_self, hnew]
      exact .create
    · rw [set_submission_of_ne _ (Ne.symm hcb)]
      exact hsame
  | add hx | cleanup hx | register hx => exact hset hx (fun _ => rfl) fun _ => .same rfl rfl rfl
  | spawn hx | fallback hx => exact hset hx (fun _ => rfl) fun he => .spawn (he ▸ rfl) rfl rfl
  | cancel hm hx hst =>
    refine hset hx (fun _ => rfl) fun he => .cancel ?_ hst rfl rfl rfl
    subst he
    exact hm.imp (fun hm => hm.2.1) fun ⟨_, _, _, ha, _⟩ => ha
  | start hx hfn | startDead hx hfn =>
    exact hset hx (fun _ => rfl) fun _ => .run (.inl hfn) rfl rfl
  | finish hx hfn => exact hset hx (fun _ => rfl) fun _ => .run (.inr hfn) rfl rfl
  | callOnDone hx hfn hno =>
    exact hset hx (fun _ => rfl) fun he => .call (he ▸ rfl) hfn hno rfl rfl rfl
  | resolve hx hst =>
    refine hset hx (fun hcb => List.count_cons_of_ne hcb) fun he => ?_
    subst he
    change Fate _ _ _ _ _ _ _ (List.count _ (_ :: s.resolved))
    rw [List.count_cons_self]
    exact .resolve rfl hst rfl rfl rfl
  | _ => exact hsame

/-- Where a submission comes from. -/
theorem ExecutorTrans.fate_some (h : ExecutorTrans s m a s' m') {fut : κ} {x' : Submission R}
    (hx' : s'.submission fut = some x') :
    s.submission fut = none ∧ x' = .new ∧ s'.resolved.count fut = s.resolved.count fut ∨
      ∃ x, s.submission fut = some x ∧
        Fate m a m' fut x (s.resolved.count fut) x' (s'.resolved.count fut) := by
  have hfate := h.fate fut
  rw [hx'] at hfate
  generalize s.submission fut = o, s.resolved.count fut = n, s'.resolved.count fut = n' at hfate ⊢
  cases hfate with
  | create => exact .inl ⟨rfl, rfl, rfl⟩
  | change h => exact .inr ⟨_, rfl, h⟩

/-- What becomes of a submission. -/
theorem ExecutorTrans.fate_of (h : ExecutorTrans s m a s' m') {fut : κ} {x : Submission R}
    (hx : s.submission fut = some x) : ∃ x', s'.submission fut = some x' ∧
      Fate m a m' fut x (s.resolved.count fut) x' (s'.resolved.count fut) := by
  have hfate := h.fate fut
  rw [hx] at hfate
  generalize s'.submission fut = o, s.resolved.count fut = n, s'.resolved.count fut = n' at hfate ⊢
  cases hfate with
  | change h => exact ⟨_, rfl, h⟩

/-- A future that has not been created is not resolved. -/
theorem ExecutorTrans.fate_none (h : ExecutorTrans s m a s' m') {fut : κ}
    (hx' : s'.submission fut = none) :
    s.submission fut = none ∧ s'.resolved.count fut = s.resolved.count fut := by
  have hfate := h.fate fut
  rw [hx'] at hfate
  generalize s.submission fut = o, s.resolved.count fut = n, s'.resolved.count fut = n' at hfate ⊢
  cases hfate with
  | none => exact ⟨rfl, rfl⟩

omit [DecidableEq κ] in
/-- A future is cancelled by a cancel that finds it pending. -/
theorem Fate.cancelled {fut : κ} {x x' : Submission R} {n n' : ℕ} (h : Fate m a m' fut x n x' n')
    (hdead : x'.state = .cancelled) :
    x.state = .cancelled ∨ (a = .cancel fut ∨ a = .pick fut) ∧ x.state = .pending := by
  cases h with
  | same hstate | spawn _ hstate | run _ hstate | call _ _ _ hstate =>
    exact .inl (hstate.symm.trans hdead)
  | cancel ha hpending => exact .inr ⟨ha, hpending⟩
  | resolve _ _ hstate =>
    rw [hstate] at hdead
    cases hdead

omit [DecidableEq κ] in
/-- A cancelled future stays so. -/
theorem Fate.keeps_cancelled {fut : κ} {x x' : Submission R} {n n' : ℕ}
    (h : Fate m a m' fut x n x' n') (hdead : x.state = .cancelled) : x'.state = .cancelled := by
  cases h with
  | same hstate | spawn _ hstate | run _ hstate | call _ _ _ hstate => exact hstate.trans hdead
  | cancel _ hpending | resolve _ hpending =>
    rw [hdead] at hpending
    cases hpending

omit [DecidableEq κ] in
/-- A step calls `_on_done` and goes into it, or does not call it. -/
theorem Fate.called_of {fut : κ} {x x' : Submission R} {n n' : ℕ} (h : Fate m a m' fut x n x' n') :
    x'.called = x.called ∨ ∃ outcome, m' = .resolve fut outcome := by
  cases h with
  | same _ _ hcalled | spawn _ _ hcalled | cancel _ _ _ _ hcalled | run _ _ hcalled
  | resolve _ _ _ _ hcalled => exact .inl hcalled
  | call hm' => exact .inr ⟨_, hm'⟩

/-- What was raised stays recorded. -/
theorem ExecutorTrans.keeps_raised (h : ExecutorTrans s m a s' m') (hraised : s.raised ≠ []) :
    s'.raised ≠ [] := by
  cases h with
  | raise => exact List.cons_ne_nil _ _
  | _ => exact hraised

/-- `_on_done` raises where it finds its future cancelled. -/
theorem ExecutorTrans.raises {fut : κ} {outcome : R} {x : Submission R}
    (h : ExecutorTrans s (.resolve fut outcome) a s' m') (hx : s.submission fut = some x)
    (hdead : x.state = .cancelled) : s'.raised ≠ [] := by
  generalize hm : ExecutorPc.resolve fut outcome = m at h
  cases h with
  | resolve hy hpending =>
    cases hm
    rw [hx] at hy
    cases hy
    rw [hdead] at hpending
    cases hpending
  | raise => exact List.cons_ne_nil _ _
  | cancel hm' | cancelNot hm' => rcases hm' with ⟨rfl, -⟩ | ⟨_, _, rfl, -⟩ <;> cases hm
  | _ => cases hm

/-- What a cancel that finds its future pending does. -/
theorem ExecutorTrans.cancels {fut : κ} {x : Submission R} (h : ExecutorTrans s m a s' m')
    (ha : a = .cancel fut ∨ a = .pick fut) (hx : s.submission fut = some x)
    (hpending : x.state = .pending) :
    s' = s.set fut { x with state := .cancelled } ∧ ∀ outcome, m ≠ .resolve fut outcome := by
  cases h with
  | cancel hm hy | cancelNot hm hy =>
    rcases hm with ⟨rfl, rfl, rfl⟩ | ⟨_, _, rfl, rfl, rfl⟩
    · rcases ha with ha | ha <;> cases ha
      rw [hx] at hy
      cases hy
      first
        | exact ⟨rfl, nofun⟩
        | contradiction
    · rcases ha with ha | ha <;> cases ha
      rw [hx] at hy
      cases hy
      first
        | exact ⟨rfl, nofun⟩
        | contradiction
  | _ => rcases ha with ha | ha <;> cases ha

end

/-! ## What holds of every run -/

/-- The future whose task the thread has not spawned yet, in `submit`. -/
def ExecutorPc.spawns : ExecutorPc κ R → Option κ
  | .submitAdd fut | .submitCleanup fut | .submitSpawn fut => some fut
  | .discard _ (.submitSpawn fut) => some fut
  | _ => none

/-- A submission whose future has been resolved `n` times: at most once, with the outcome of the
function, by `_on_done`. -/
structure Submission.Sound (x : Submission R) (n : ℕ) : Prop where
  finished : ∀ outcome, x.state = .finished outcome →
    x.fn = .ended outcome ∧ x.called = true ∧ n = 1
  unfinished : (∀ outcome, x.state ≠ .finished outcome) → n = 0

/-- What holds of the threads and submissions in every run. -/
structure FateInv (c : ExecutorConfig κ R ι) : Prop where
  sound : ∀ fut x, c.shared.submission fut = some x → x.Sound (c.shared.resolved.count fut)
  fresh : ∀ fut, c.shared.submission fut = none → c.shared.resolved.count fut = 0
  spawns : ∀ i fut, (c.loc i).spawns = some fut →
    ∃ x, c.shared.submission fut = some x ∧ x.fn = .unspawned ∧ x.called = false
  spawnsOne : ∀ i j fut, (c.loc i).spawns = some fut → (c.loc j).spawns = some fut → i = j
  /-- A thread in `_on_done` has an outcome for a future that is not finished. -/
  resolves : ∀ i fut outcome, c.loc i = .resolve fut outcome →
    ∃ x, c.shared.submission fut = some x ∧ x.fn = .ended outcome ∧ x.called = true ∧
      ∀ outcome', x.state ≠ .finished outcome'
  resolvesOne : ∀ i j fut outcome outcome', c.loc i = .resolve fut outcome →
    c.loc j = .resolve fut outcome' → i = j
  /-- A future whose `_on_done` was called is not pending, or a thread is in that call. -/
  owed : ∀ fut x, c.shared.submission fut = some x → x.called = true → x.state = .pending →
    ∃ i outcome, c.loc i = .resolve fut outcome

section
variable {s s' : ExecutorShared κ R} {m m' : ExecutorPc κ R} {a : ExecutorAct κ R}

omit [DecidableEq κ] in
/-- The cleanup after a final state is in no `_on_done` of a task, and spawns what is spawned after
it. -/
theorem afterState_spawns (fut : κ) (x : Submission R) (next : AfterCleanup κ) :
    (afterState fut x next).spawns = next.pc (R := R).spawns ∧
      ∀ fut' outcome, afterState fut x next ≠ .resolve fut' outcome := by
  unfold afterState
  split <;> cases next <;> exact ⟨rfl, nofun⟩

/-- A thread comes to spawn the task of a future that it creates. -/
theorem ExecutorTrans.to_spawns (h : ExecutorTrans s m a s' m') {fut : κ}
    (hm' : m'.spawns = some fut) :
    m.spawns = some fut ∧ m ≠ .submitSpawn fut ∨
      s.submission fut = none ∧ s'.submission fut = some .new := by
  cases h with
  | create hflag hnew =>
    cases hm'
    exact .inr ⟨hnew, set_submission_self ..⟩
  | add | cleanup | cleanupDead =>
    cases hm'
    exact .inl ⟨rfl, nofun⟩
  | @discard _ next =>
    cases next with
    | submitSpawn => cases hm'; exact .inl ⟨rfl, nofun⟩
    | idle | cancelling => cases hm'
  | cancel hm =>
    rw [(afterState_spawns ..).1] at hm'
    rcases hm with ⟨rfl, -, rfl⟩ | ⟨_, _, rfl, -, rfl⟩ <;> cases hm'
  | cancelNot hm => rcases hm with ⟨rfl, -, rfl⟩ | ⟨_, _, rfl, -, rfl⟩ <;> cases hm'
  | resolve =>
    rw [(afterState_spawns ..).1] at hm'
    cases hm'
  | @setFlag wait cancelFutures => cases cancelFutures <;> cases wait <;> cases hm'
  | @cancelled wait => cases wait <;> cases hm'
  | _ => cases hm'

/-- A thread comes to `_on_done` by the call of it. -/
theorem ExecutorTrans.to_resolve {fut : κ} {outcome : R}
    (h : ExecutorTrans s m a s' (.resolve fut outcome)) :
    ∃ x, s.submission fut = some x ∧ x.called = false ∧ x.fn = .ended outcome ∧
      s' = s.set fut { x with called := true } := by
  generalize hm' : ExecutorPc.resolve fut outcome = m' at h
  cases h with
  | callOnDone hx hfn hno =>
    cases hm'
    exact ⟨_, hx, hno, hfn, rfl⟩
  | @discard _ next => cases next <;> cases hm'
  | cancel | resolve => exact absurd hm'.symm ((afterState_spawns ..).2 _ _)
  | @cancelNot _ _ _ next => cases next <;> cases hm'
  | @setFlag wait cancelFutures => cases cancelFutures <;> cases wait <;> cases hm'
  | @cancelled wait => cases wait <;> cases hm'
  | _ => cases hm'

/-- `_on_done` finishes a future that is pending. -/
theorem ExecutorTrans.from_resolve {fut : κ} {outcome : R} {x : Submission R}
    (h : ExecutorTrans s (.resolve fut outcome) a s' m') (hx : s.submission fut = some x)
    (hst : x.state = .pending) :
    ∃ x', s'.submission fut = some x' ∧ x'.state = .finished outcome := by
  generalize hm : ExecutorPc.resolve fut outcome = m at h
  cases h with
  | resolve => cases hm; exact ⟨_, set_submission_self .., rfl⟩
  | raise hy hno =>
    cases hm
    rw [hx] at hy
    cases hy
    exact absurd hst hno
  | cancel hm' | cancelNot hm' => rcases hm' with ⟨rfl, -⟩ | ⟨_, _, rfl, -⟩ <;> cases hm
  | _ => cases hm

omit [DecidableEq κ] in
/-- A submission stays sound. -/
theorem Fate.sound {fut : κ} {x x' : Submission R} {n n' : ℕ} (h : Fate m a m' fut x n x' n')
    (hx : x.Sound n)
    (hspawns : m.spawns = some fut → x.fn = .unspawned ∧ x.called = false)
    (hresolves : ∀ outcome, m = .resolve fut outcome → x.fn = .ended outcome ∧ x.called = true) :
    x'.Sound n' := by
  cases h with
  | same hstate hfn hcalled =>
    refine ⟨fun o ho => ?_, fun ho => hx.unfinished fun o he => ho o (hstate.trans he)⟩
    rw [hfn, hcalled]
    exact hx.finished o (hstate ▸ ho)
  | spawn hm hstate hcalled =>
    obtain ⟨hfn, hno⟩ := hspawns (by rw [hm]; rfl)
    refine ⟨fun o ho => ?_, fun ho => hx.unfinished fun o he => ho o (hstate.trans he)⟩
    rw [(hx.finished o (hstate ▸ ho)).1] at hfn
    cases hfn
  | cancel _ hpending hstate =>
    refine ⟨fun o ho => ?_, fun _ => hx.unfinished fun o he => ?_⟩
    · rw [hstate] at ho
      cases ho
    · rw [hpending] at he
      cases he
  | run hfn hstate hcalled =>
    refine ⟨fun o ho => ?_, fun ho => hx.unfinished fun o he => ho o (hstate.trans he)⟩
    rw [(hx.finished o (hstate ▸ ho)).1] at hfn
    rcases hfn with hfn | hfn <;> cases hfn
  | call hm' hfn hno hstate hfn' hcalled =>
    refine ⟨fun o ho => ?_, fun ho => hx.unfinished fun o he => ho o (hstate.trans he)⟩
    rw [(hx.finished o (hstate ▸ ho)).2.1] at hno
    cases hno
  | resolve hm hpending hstate hfn hcalled =>
    obtain ⟨hended, hyes⟩ := hresolves _ hm
    refine ⟨fun o ho => ?_, fun ho => absurd hstate (ho _)⟩
    rw [hstate] at ho
    cases ho
    refine ⟨hfn.trans hended, hcalled.trans hyes, ?_⟩
    rw [hx.unfinished fun o he => by rw [hpending] at he; cases he]

end

section
variable [DecidableEq ι] {c : ExecutorConfig κ R ι} {i : ι} {s' : ExecutorShared κ R}
  {m' : ExecutorPc κ R} {a : ExecutorAct κ R}

omit [DecidableEq ι] in
/-- The invariant holds at the start. -/
theorem FateInv.init : FateInv (executorStart κ R ι) where
  sound _ _ := nofun
  fresh _ _ := rfl
  spawns _ _ := nofun
  spawnsOne _ _ _ := nofun
  resolves _ _ _ := nofun
  resolvesOne _ _ _ _ _ := nofun
  owed _ _ := nofun

omit [DecidableEq ι] in
/-- A step keeps the submissions sound. -/
theorem FateInv.step_sound (hI : FateInv c) (h : ExecutorTrans c.shared (c.loc i) a s' m')
    (fut : κ) (x' : Submission R) (hx' : s'.submission fut = some x') :
    x'.Sound (s'.resolved.count fut) := by
  rcases h.fate_some hx' with ⟨hnone, rfl, hcount⟩ | ⟨x, hx, hfate⟩
  · rw [hcount, hI.fresh fut hnone]
    exact ⟨nofun, fun _ => rfl⟩
  · refine hfate.sound (hI.sound fut x hx) (fun hm => ?_) fun outcome hm => ?_
    · obtain ⟨y, hy, hfn, hno⟩ := hI.spawns i fut hm
      rw [hx] at hy
      cases hy
      exact ⟨hfn, hno⟩
    · obtain ⟨y, hy, hfn, hyes, -⟩ := hI.resolves i fut outcome hm
      rw [hx] at hy
      cases hy
      exact ⟨hfn, hyes⟩

omit [DecidableEq ι] in
/-- What a thread that spawns a task knows of it lasts, unless it is the one that moves and spawns
it. -/
theorem FateInv.keep_spawns (hI : FateInv c) (h : ExecutorTrans c.shared (c.loc i) a s' m')
    {j : ι} {fut : κ} (hj : (c.loc j).spawns = some fut)
    (hne : j ≠ i ∨ c.loc i ≠ .submitSpawn fut) :
    ∃ x, s'.submission fut = some x ∧ x.fn = .unspawned ∧ x.called = false := by
  obtain ⟨x, hx, hfn, hno⟩ := hI.spawns j fut hj
  obtain ⟨x', hx', hfate⟩ := h.fate_of hx
  refine ⟨x', hx', ?_⟩
  generalize c.shared.resolved.count fut = n, s'.resolved.count fut = n' at hfate
  cases hfate with
  | same _ hfn' hcalled | cancel _ _ _ hfn' hcalled | resolve _ _ _ hfn' hcalled =>
    exact ⟨hfn'.trans hfn, hcalled.trans hno⟩
  | spawn hm =>
    rcases hne with hne | hne
    · exact absurd (hI.spawnsOne j i fut hj (by rw [hm]; rfl)) hne
    · exact absurd hm hne
  | run hrun =>
    rw [hfn] at hrun
    rcases hrun with hrun | hrun <;> cases hrun
  | call _ hended =>
    rw [hfn] at hended
    cases hended

omit [DecidableEq ι] in
/-- What a thread in `_on_done` knows of the future lasts, unless it is the one that moves. -/
theorem FateInv.keep_resolves (hI : FateInv c) (h : ExecutorTrans c.shared (c.loc i) a s' m')
    {j : ι} {fut : κ} {outcome : R} (hj : c.loc j = .resolve fut outcome) (hne : j ≠ i) :
    ∃ x, s'.submission fut = some x ∧ x.fn = .ended outcome ∧ x.called = true ∧
      ∀ outcome', x.state ≠ .finished outcome' := by
  obtain ⟨x, hx, hfn, hyes, hst⟩ := hI.resolves j fut outcome hj
  obtain ⟨x', hx', hfate⟩ := h.fate_of hx
  refine ⟨x', hx', ?_⟩
  generalize c.shared.resolved.count fut = n, s'.resolved.count fut = n' at hfate
  cases hfate with
  | same hstate hfn' hcalled =>
    exact ⟨hfn'.trans hfn, hcalled.trans hyes, fun o => hstate ▸ hst o⟩
  | spawn hm =>
    obtain ⟨y, hy, -, hno⟩ := hI.spawns i fut (by rw [hm]; rfl)
    rw [hx] at hy
    cases hy
    rw [hyes] at hno
    cases hno
  | cancel _ hpending hstate hfn' hcalled =>
    exact ⟨hfn'.trans hfn, hcalled.trans hyes, fun o => by rw [hstate]; nofun⟩
  | run hrun =>
    rw [hfn] at hrun
    rcases hrun with hrun | hrun <;> cases hrun
  | call _ _ hno =>
    rw [hyes] at hno
    cases hno
  | resolve hm => exact absurd (hI.resolvesOne j i fut _ _ hj hm) hne

/-- A step keeps the invariant. -/
theorem FateInv.step {c' : ExecutorConfig κ R ι} {a : ι × ExecutorAct κ R} (hI : FateInv c)
    (hst : (executorMachine κ R ι).step c a = some c') : FateInv c' := by
  obtain ⟨i, a⟩ := a
  obtain ⟨s', m', hp, rfl⟩ := step_iff.1 hst
  have ht : ExecutorTrans c.shared (c.loc i) a s' m' := executorStep_trans hp
  have hself : Function.update c.loc i m' i = m' := Function.update_self ..
  have hother : ∀ {j}, j ≠ i → Function.update c.loc i m' j = c.loc j :=
    fun hj => Function.update_of_ne hj ..
  -- a thread that comes to spawn a task is the only one that does, and likewise with `_on_done`
  have hnewSpawn : ∀ {j fut}, j ≠ i → m'.spawns = some fut → (c.loc j).spawns ≠ some fut := by
    intro j fut hji hm' hj
    rcases ht.to_spawns hm' with ⟨hm, -⟩ | ⟨hnone, -⟩
    · exact hji (hI.spawnsOne j i fut hj hm)
    · obtain ⟨x, hx, -⟩ := hI.spawns j fut hj
      rw [hnone] at hx
      cases hx
  have hnewResolve : ∀ {j fut o o'}, j ≠ i → m' = .resolve fut o → c.loc j ≠ .resolve fut o' := by
    rintro j fut o o' - rfl hj
    obtain ⟨x, hx, hno, -⟩ := ht.to_resolve
    obtain ⟨y, hy, -, hyes, -⟩ := hI.resolves j fut o' hj
    rw [hx] at hy
    cases hy
    rw [hno] at hyes
    cases hyes
  refine ⟨hI.step_sound ht, fun fut hnone => ?_, fun j fut hj => ?_, fun j k fut hj hk => ?_,
    fun j fut outcome hj => ?_, fun j k fut o o' hj hk => ?_, fun fut x hx hyes hpending => ?_⟩
  · obtain ⟨hnone', hcount⟩ := ht.fate_none hnone
    exact hcount.trans (hI.fresh fut hnone')
  · change (Function.update c.loc i m' j).spawns = _ at hj
    by_cases hji : j = i
    · subst hji
      rw [hself] at hj
      rcases ht.to_spawns hj with ⟨hm, hne⟩ | ⟨-, hnew⟩
      · exact hI.keep_spawns ht hm (.inr hne)
      · exact ⟨_, hnew, rfl, rfl⟩
    · rw [hother hji] at hj
      exact hI.keep_spawns ht hj (.inl hji)
  · refine unique_update (p := fun m : ExecutorPc κ R => m.spawns = some fut)
      (fun j k => hI.spawnsOne j k fut) ?_ j k hj hk
    exact fun hm' j hji => hnewSpawn hji hm'
  · change Function.update c.loc i m' j = _ at hj
    by_cases hji : j = i
    · subst hji
      rw [hself] at hj
      subst hj
      obtain ⟨x, hx, hno, hfn, rfl⟩ := ht.to_resolve
      refine ⟨_, set_submission_self .., hfn, rfl, fun o ho => ?_⟩
      have hyes := ((hI.sound fut x hx).finished o ho).2.1
      rw [hno] at hyes
      cases hyes
    · rw [hother hji] at hj
      exact hI.keep_resolves ht hj hji
  · refine unique_update (p := fun m : ExecutorPc κ R => ∃ o, m = .resolve fut o) ?_ ?_ j k
      ⟨o, hj⟩ ⟨o', hk⟩
    · rintro j k ⟨o, hj⟩ ⟨o', hk⟩
      exact hI.resolvesOne j k fut o o' hj hk
    · rintro ⟨o, hm'⟩ j hji ⟨o', hj⟩
      exact hnewResolve hji hm' hj
  · change s'.submission fut = some x at hx
    rcases ht.fate_some hx with ⟨-, rfl, -⟩ | ⟨y, hy, hfate⟩
    · cases hyes
    have hlasts : y.called = true → y.state = .pending →
        ∃ j outcome, Function.update c.loc i m' j = .resolve fut outcome := by
      intro hycalled hypending
      obtain ⟨j, o, hj⟩ := hI.owed fut y hy hycalled hypending
      by_cases hji : j = i
      · subst hji
        rw [hj] at ht
        obtain ⟨x', hx', hfinished⟩ := ht.from_resolve hy hypending
        rw [hx] at hx'
        cases hx'
        rw [hpending] at hfinished
        cases hfinished
      · exact ⟨j, o, (hother hji).trans hj⟩
    generalize c.shared.resolved.count fut = n, s'.resolved.count fut = n' at hfate
    cases hfate with
    | same hstate _ hcalled | spawn _ hstate hcalled | run _ hstate hcalled =>
      exact hlasts (hcalled.symm.trans hyes) (hstate.symm.trans hpending)
    | cancel _ _ hstate | resolve _ _ hstate =>
      rw [hpending] at hstate
      cases hstate
    | call hm' => exact ⟨i, _, hself.trans hm'⟩

/-! ## Cancels that are honoured -/

/-- The threads are at rest, and `_on_done` was called for every submission. -/
def ExecutorDone (c : ExecutorConfig κ R ι) : Prop :=
  (∀ i, c.loc i = .idle) ∧ ∀ fut x, c.shared.submission fut = some x → x.called = true

/-- An executor that honours cancels: no function is started for a future that was cancelled,
`_on_done` does not raise, and a future ends with the outcome of its function, once, unless it was
cancelled. -/
structure CancelHonoured (c : ExecutorConfig κ R ι) : Prop where
  notStarted : c.shared.startedDead = []
  calm : c.shared.raised = []
  once : ∀ fut, c.shared.resolved.count fut ≤ 1
  outcome : ∀ fut x outcome, c.shared.submission fut = some x → x.state = .finished outcome →
    x.fn = .ended outcome ∧ c.shared.resolved.count fut = 1
  settled : ExecutorDone c → ∀ fut x, c.shared.submission fut = some x → x.state ≠ .pending

/-- No cancel finds its future pending. -/
def cancelsNothing (c : ExecutorConfig κ R ι) (a : ι × ExecutorAct κ R) : Prop :=
  ∀ fut x, a.2 = .cancel fut ∨ a.2 = .pick fut → c.shared.submission fut = some x →
    x.state ≠ .pending

omit [DecidableEq ι] in
/-- Where nothing was started for a cancelled future and nothing was raised, cancels are honoured.
-/
theorem FateInv.honoured (hI : FateInv c) (hstarted : c.shared.startedDead = [])
    (hraised : c.shared.raised = []) : CancelHonoured c where
  notStarted := hstarted
  calm := hraised
  once fut := by
    cases hx : c.shared.submission fut with
    | none => rw [hI.fresh fut hx]; exact Nat.zero_le 1
    | some x =>
      have hsound := hI.sound fut x hx
      by_cases hfin : ∃ outcome, x.state = .finished outcome
      · obtain ⟨outcome, hst⟩ := hfin
        exact (hsound.finished outcome hst).2.2.le
      · rw [hsound.unfinished fun o ho => hfin ⟨o, ho⟩]
        exact Nat.zero_le 1
  outcome fut x outcome hx hst :=
    have hfin := (hI.sound fut x hx).finished outcome hst
    ⟨hfin.1, hfin.2.2⟩
  settled hdone fut x hx hpending := by
    obtain ⟨i, outcome, hi⟩ := hI.owed fut x hx (hdone.2 fut x hx) hpending
    rw [hdone.1 i] at hi
    cases hi

/-- What holds of the runs in which no cancel takes effect. -/
structure UncancelledInv (c : ExecutorConfig κ R ι) : Prop where
  inv : FateInv c
  started : c.shared.startedDead = []
  raised : c.shared.raised = []
  alive : ∀ fut x, c.shared.submission fut = some x → x.state ≠ .cancelled

/-- A step that cancels nothing keeps that. -/
theorem UncancelledInv.step {c' : ExecutorConfig κ R ι} {a : ι × ExecutorAct κ R}
    (hI : UncancelledInv c) (hno : cancelsNothing c a)
    (hst : (executorMachine κ R ι).step c a = some c') : UncancelledInv c' := by
  have hinv := hI.inv.step hst
  obtain ⟨i, a⟩ := a
  obtain ⟨s', m', hp, rfl⟩ := step_iff.1 hst
  have ht : ExecutorTrans c.shared (c.loc i) a s' m' := executorStep_trans hp
  refine ⟨hinv, ?_, ?_, fun fut x' hx' hdead => ?_⟩
  · generalize c.loc i = m at ht
    cases ht with
    | startDead hx _ hdead => exact absurd hdead (hI.alive _ _ hx)
    | _ => exact hI.started
  · have hresolves := hI.inv.resolves i
    generalize c.loc i = m at ht hresolves
    cases ht with
    | @raise _ _ x hx hnot =>
      obtain ⟨y, hy, -, -, hfin⟩ := hresolves _ _ rfl
      rw [hx] at hy
      cases hy
      cases hstate : x.state with
      | pending => exact absurd hstate hnot
      | cancelled => exact absurd hstate (hI.alive _ _ hx)
      | finished o => exact absurd hstate (hfin o)
    | _ => exact hI.raised
  · rcases ht.fate_some hx' with ⟨-, rfl, -⟩ | ⟨x, hx, hfate⟩
    · cases hdead
    rcases hfate.cancelled hdead with hstate | ⟨ha, hpending⟩
    · exact hI.alive fut x hx hstate
    · exact hno fut x ha hx hpending

/-- A cancel has taken effect, and `_on_done` has raised or will raise for it. -/
def CancelDoomed (c : ExecutorConfig κ R ι) : Prop :=
  c.shared.raised ≠ [] ∨ ∃ fut x, c.shared.submission fut = some x ∧ x.state = .cancelled ∧
    (x.called = false ∨ ∃ i outcome, c.loc i = .resolve fut outcome)

/-- That lasts. -/
theorem CancelDoomed.step {c' : ExecutorConfig κ R ι} {a : ι × ExecutorAct κ R}
    (hD : CancelDoomed c) (hst : (executorMachine κ R ι).step c a = some c') : CancelDoomed c' := by
  obtain ⟨i, a⟩ := a
  obtain ⟨s', m', hp, rfl⟩ := step_iff.1 hst
  have ht : ExecutorTrans c.shared (c.loc i) a s' m' := executorStep_trans hp
  rcases hD with hraised | ⟨fut, x, hx, hdead, hcall⟩
  · exact .inl (ht.keeps_raised hraised)
  obtain ⟨x', hx', hfate⟩ := ht.fate_of hx
  have hdead' : x'.state = .cancelled := hfate.keeps_cancelled hdead
  rcases hcall with hno | ⟨j, outcome, hj⟩
  · rcases hfate.called_of with hsame | ⟨outcome, hm'⟩
    · exact .inr ⟨fut, x', hx', hdead', .inl (hsame.trans hno)⟩
    · exact .inr ⟨fut, x', hx', hdead', .inr ⟨i, outcome, hm' ▸ Function.update_self ..⟩⟩
  · by_cases hji : j = i
    · subst hji
      rw [hj] at ht
      exact .inl (ht.raises hx hdead)
    · exact .inr ⟨fut, x', hx', hdead', .inr ⟨j, outcome, (Function.update_of_ne hji ..).trans hj⟩⟩

/-- A cancel that finds its future pending dooms the run. -/
theorem FateInv.doomed {c' : ExecutorConfig κ R ι} {a : ι × ExecutorAct κ R} (hI : FateInv c)
    (hno : ¬ cancelsNothing c a) (hst : (executorMachine κ R ι).step c a = some c') :
    CancelDoomed c' := by
  obtain ⟨i, a⟩ := a
  obtain ⟨s', m', hp, rfl⟩ := step_iff.1 hst
  have ht : ExecutorTrans c.shared (c.loc i) a s' m' := executorStep_trans hp
  unfold cancelsNothing at hno
  push Not at hno
  obtain ⟨fut, x, ha, hx, hpending⟩ := hno
  obtain ⟨hset, hm⟩ := ht.cancels ha hx hpending
  refine .inr ⟨fut, _, by rw [hset]; exact set_submission_self .., rfl, ?_⟩
  cases hcalled : x.called with
  | false => exact .inl rfl
  | true =>
    obtain ⟨j, outcome, hj⟩ := hI.owed fut x hx hcalled hpending
    have hji : j ≠ i := by
      rintro rfl
      exact hm outcome hj
    exact .inr ⟨j, outcome, (Function.update_of_ne hji ..).trans hj⟩

omit [DecidableEq ι] in
/-- A doomed run that has come to its end does not honour cancels. -/
theorem CancelDoomed.not_honoured (hD : CancelDoomed c) (hdone : ExecutorDone c) :
    ¬ CancelHonoured c := by
  intro hH
  rcases hD with hraised | ⟨fut, x, hx, -, hno | ⟨i, outcome, hi⟩⟩
  · exact hraised hH.calm
  · rw [hdone.2 fut x hx] at hno
    cases hno
  · rw [hdone.1 i] at hi
    cases hi

end

/-- A run in which no cancel takes effect honours cancels in all its states, and a run that has come
to its end does so only if no cancel took effect. -/
theorem cancel_honoured (κ R ι : Type) [DecidableEq κ] [DecidableEq ι]
    (as : List (ι × ExecutorAct κ R)) :
    ((executorMachine κ R ι).AllSteps cancelsNothing (executorStart κ R ι) as →
      (executorMachine κ R ι).AllStates CancelHonoured (executorStart κ R ι) as) ∧
    ∀ c, (executorMachine κ R ι).run (executorStart κ R ι) as = some c → ExecutorDone c →
      (executorMachine κ R ι).AllStates CancelHonoured (executorStart κ R ι) as →
      (executorMachine κ R ι).AllSteps cancelsNothing (executorStart κ R ι) as := by
  constructor
  · exact AllSteps.allStates (I := UncancelledInv) (fun _ hI => hI.inv.honoured hI.started hI.raised)
      (fun _ _ _ hI hno hst => hI.step hno hst) ⟨.init, rfl, rfl, nofun⟩
  · intro c hrun hdone hall
    rcases allSteps_or_of_run (I := FateInv) (D := CancelDoomed) (fun _ _ _ hI hst => hI.step hst)
      (fun _ _ _ _ hD hst => hD.step hst) (fun _ _ _ hI hno hst => hI.doomed hno hst) as .init hrun
      with hsteps | hdoomed
    · exact hsteps
    · exact absurd (hall.last hrun) (hdoomed.not_honoured hdone)

/-- A call is submitted, cancelled before it starts, and runs all the same. -/
def cancelThenRun : List (Unit × ExecutorAct Unit Unit) :=
  ((), .submit ()) :: List.replicate 6 ((), .go) ++
    [((), .cancel ()), ((), .go), ((), .start ()), ((), .finish () ()), ((), .callOnDone ()),
      ((), .go)]

/-- In that run the function was started for the cancelled future, and `_on_done` has raised. -/
theorem cancelled_call_started :
    ∃ c, (executorMachine Unit Unit Unit).run (executorStart Unit Unit Unit) cancelThenRun = some c ∧
      c.shared.startedDead = [()] ∧ c.shared.raised = [()] ∧ ¬ CancelHonoured c :=
  ⟨_, rfl, rfl, rfl, fun hH => List.cons_ne_nil _ _ hH.calm⟩

end Hypertile
