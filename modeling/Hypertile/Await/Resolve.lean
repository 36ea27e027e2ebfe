import Hypertile.Await.Loop

/-!
# Which futures are resolved

What holds of the futures of all awaits in every run (`AwaitInv`): the callback of each is called at
most once, and is in a callback, in the queue of the loop or executed at most once; what is posted
is the outcome of the task; and a future whose callback was called is cancelled or done, or its
outcome is on its way. A future that is cancelled while its outcome is on its way is resolved
although it is dead, and this is the only way to one (`await_resolves`).
-/

namespace Hypertile

open Machine Machine.Threads

variable {V E κ ι : Type} [DecidableEq κ] {T : TaskType V E}

/-! ## The steps -/

/-- `AwaitTrans T t s l a s' l'`: the thread `t` at `l` can take the step `a` from `s`, to `s'` and
`l'`. -/
inductive AwaitTrans (T : TaskType V E) (t : Fin T.futures ⊕ ι)
    (s : AwaitShared T.Inner κ (TaskOutcome V E)) (l : AwaitThread T.Work κ (TaskOutcome V E)) :
    AwaitAct κ → AwaitShared T.Inner κ (TaskOutcome V E) →
      AwaitThread T.Work κ (TaskOutcome V E) → Prop
  /-- A step in the code of the task. -/
  | task {d : Completion T.Inner κ} {m' : CallbackPc T.Work κ} (hbody : l.body = none)
      (hp : completionStep T (fun _ => bridgeCallback) t s.completion l.pc .go = some (d, m')) :
      AwaitTrans T t s l .go { s with completion := d }
        ⟨m', l.pc.calls.map fun cb => (cb, .check)⟩
  | await {fut : κ} {d : Completion T.Inner κ} {m' : CallbackPc T.Work κ} (hbody : l.body = none)
      (hnew : s.futures fut = none)
      (hp : completionStep T (fun _ => bridgeCallback) t s.completion l.pc (.register fut) =
        some (d, m')) :
      AwaitTrans T t s l (.await fut)
        { s with
          completion := d
          futures := Function.update s.futures fut (some .pending) } ⟨m', none⟩
  | skip {fut : κ} (hbody : l.body = some (fut, .check))
      (hcancelled : s.futures fut = some .cancelled) : AwaitTrans T t s l .go s ⟨l.pc, none⟩
  | pass {fut : κ} (hbody : l.body = some (fut, .check))
      (hno : s.futures fut ≠ some .cancelled) :
      AwaitTrans T t s l .go s ⟨l.pc, some (fut, .read)⟩
  | read {fut : κ} (hbody : l.body = some (fut, .read)) :
      AwaitTrans T t s l .go s ⟨l.pc, some (fut, .post (T.result s.completion.inner))⟩
  | post {fut : κ} {outcome : TaskOutcome V E} (hbody : l.body = some (fut, .post outcome)) :
      AwaitTrans T t s l .go { s with queue := s.queue ++ [(fut, outcome)] } ⟨l.pc, none⟩
  | cancel {fut : κ} (hbody : l.body = none) (hpending : s.futures fut = some .pending) :
      AwaitTrans T t s l (.cancel fut)
        { s with futures := Function.update s.futures fut (some .cancelled) } l
  /-- A cancel that finds the future done or cancelled. -/
  | cancelNot {fut : κ} (hno : s.futures fut ≠ some .pending) :
      AwaitTrans T t s l (.cancel fut) s l
  | resolve {fut : κ} {outcome : TaskOutcome V E} {queue : List (κ × TaskOutcome V E)}
      (hqueue : s.queue = (fut, outcome) :: queue) (hpending : s.futures fut = some .pending) :
      AwaitTrans T t s l .exec
        { s with
          queue
          futures := Function.update s.futures fut (some (.done outcome))
          resolved := fut :: s.resolved } l
  /-- `InvalidStateError`. -/
  | refuse {fut : κ} {outcome : TaskOutcome V E} {queue : List (κ × TaskOutcome V E)}
      (hqueue : s.queue = (fut, outcome) :: queue) (hno : s.futures fut ≠ some .pending) :
      AwaitTrans T t s l .exec { s with queue, invalid := fut :: s.invalid } l

section
variable {t : Fin T.futures ⊕ ι} {s s' : AwaitShared T.Inner κ (TaskOutcome V E)}
  {l l' : AwaitThread T.Work κ (TaskOutcome V E)} {a : AwaitAct κ}

/-- What a step of the loop can do. -/
theorem loopAct_trans (hbody : l.body = none) (h : loopAct s a = some s') :
    AwaitTrans T t s l a s' l := by
  cases a with
  | go | await fut => cases h
  | cancel fut =>
    simp only [loopAct] at h
    split at h
    · next hpending => cases h; exact .cancel hbody hpending
    · next st hno hst =>
      cases h
      refine .cancelNot fun hpending => ?_
      rw [hst] at hpending
      exact hno (Option.some.inj hpending)
    · cases h
  | exec =>
    simp only [loopAct] at h
    split at h
    · next fut outcome queue hqueue =>
      cases h
      unfold AwaitShared.resolve
      split
      · next hpending => exact .resolve hqueue hpending
      · next hno => exact .refuse hqueue hno
    · cases h

/-- What a step can do. -/
theorem awaitStep_trans (h : awaitStep T t s l a = some (s', l')) : AwaitTrans T t s l a s' l' := by
  obtain ⟨pc, body⟩ := l
  cases body with
  | some b =>
    obtain ⟨fut, b⟩ := b
    cases a with
    | go =>
      cases b with
      | check =>
        simp only [awaitStep, bridgeStep] at h
        split at h
        · next hcancelled => cases h; exact .skip rfl hcancelled
        · next hno => cases h; exact .pass rfl hno
      | read => cases h; exact .read rfl
      | post outcome => cases h; exact .post rfl
    | await fut' | cancel fut' | exec => cases h
  | none =>
    cases a with
    | go =>
      obtain ⟨⟨d, m'⟩, hp, he⟩ := Option.map_eq_some_iff.1 h
      cases he
      exact .task rfl hp
    | await fut =>
      simp only [awaitStep] at h
      split at h
      · next hnew =>
        obtain ⟨⟨d, m'⟩, hp, he⟩ := Option.map_eq_some_iff.1 h
        cases he
        exact .await rfl hnew hp
      · cases h
    | cancel fut | exec =>
      simp only [awaitStep] at h
      split at h
      · obtain ⟨s₁, hs₁, he⟩ := Option.map_eq_some_iff.1 h
        cases he
        exact loopAct_trans rfl hs₁
      · cases h

end

/-! ## The task under the awaits -/

section
variable {c c' : AwaitConfig T κ ι}

/-- The task and the threads, without the awaits. -/
def completionOf (c : AwaitConfig T κ ι) :
    Config (Completion T.Inner κ) (CallbackPc T.Work κ) (Fin T.futures ⊕ ι) :=
  ⟨c.shared.completion, fun t => (c.loc t).pc⟩

variable [DecidableEq ι]

omit [DecidableEq ι] in
/-- A step of a thread is a step of the completion machine, or leaves the task as it is. -/
theorem awaitStep_simulates : Simulates (awaitStep T (κ := κ) (ι := ι))
    (completionStep T fun _ => bridgeCallback) AwaitShared.completion AwaitThread.pc := by
  intro t s l a s' l' hp
  cases awaitStep_trans hp with
  | task hbody hd => exact .inr ⟨.go, hd⟩
  | await hbody hnew hd => exact .inr ⟨.register _, hd⟩
  | _ => exact .inl ⟨rfl, rfl⟩

/-- The task of a run with awaits is in a run of the completion machine. -/
theorem completionOf_step {a : (Fin T.futures ⊕ ι) × AwaitAct κ}
    (hst : (awaitMachine T κ ι).step c a = some c') :
    (completionMachine T (fun _ => bridgeCallback) ι).Reach anyStep (completionOf c)
      (completionOf c') :=
  reach_map_step awaitStep_simulates hst

end

/-! ## How often an await is resolved -/

section
variable {t : Fin T.futures ⊕ ι} {d d' : Completion T.Inner κ} {m m' : CallbackPc T.Work κ}

omit [DecidableEq κ] in
/-- A step of the task records the callback that it calls. -/
theorem completionStep_called {callable : κ → Callable} {b : CallbackAct κ}
    (h : completionStep T callable t d m b = some (d', m')) :
    d'.called = m.calls.toList ++ d.called := by
  rcases completionStep_cases h with ⟨p, w, r, -, rfl, -, hadv⟩ | htr
  · exact (Completion.advance_eq hadv).2.2.2.1
  · cases htr <;> rfl

omit [DecidableEq κ] in
/-- A step of the task registers the callback that it is given, and no other. -/
theorem completionStep_registered {callable : κ → Callable} {b : CallbackAct κ}
    (h : completionStep T callable t d m b = some (d', m')) :
    d'.registered = (match b with | .register cb => [cb] | .go => []) ++ d.registered := by
  cases b with
  | register cb =>
    cases m with
    | idle => cases h; rfl
    | working w => cases h
    | calling queue => cases queue <;> cases h
    | _ => cases h
  | go =>
    rcases completionStep_cases h with ⟨p, w, r, -, rfl, -, hadv⟩ | htr
    · exact (Completion.advance_eq hadv).2.2.1
    · cases htr with
      | register => cases h
      | _ => rfl

end

/-- How often the loop has the outcome of a future in its queue, or has executed it. -/
def AwaitShared.handed {D R : Type} (fut : κ) (s : AwaitShared D κ R) : ℕ :=
  s.queue.countP (fun p => p.1 = fut) + s.resolved.count fut + s.invalid.count fut

/-- Whether the thread is in the callback of a future. -/
def AwaitThread.bridges {W R : Type} (fut : κ) (l : AwaitThread W κ R) : ℕ :=
  if l.body.map Prod.fst = some fut then 1 else 0

section
variable {t : Fin T.futures ⊕ ι} {s s' : AwaitShared T.Inner κ (TaskOutcome V E)}
  {l l' : AwaitThread T.Work κ (TaskOutcome V E)} {a : AwaitAct κ}

/-- A step hands on what there is of a future, and only a call of its callback brings more. -/
theorem AwaitTrans.handed (h : AwaitTrans T t s l a s' l') (fut : κ) :
    s'.handed fut + l'.bridges fut + s.completion.called.count fut ≤
      s.handed fut + l.bridges fut + s'.completion.called.count fut := by
  cases h with
  | task hbody hp =>
    rw [completionStep_called hp]
    cases l.pc.calls with
    | none => simp [AwaitThread.bridges, AwaitShared.handed]
    | some cb =>
      by_cases hcb : cb = fut <;> simp [AwaitThread.bridges, AwaitShared.handed, hcb]
      omega
  | await hbody hnew hp =>
    rw [completionStep_called hp]
    simp only [AwaitThread.bridges, AwaitShared.handed, List.count_append, Option.map_none,
      reduceCtorEq, if_false, Nat.add_zero]
    exact Nat.add_le_add (Nat.le_add_right ..) (Nat.le_add_left ..)
  | skip hbody | cancelNot | cancel => simp [AwaitThread.bridges, AwaitShared.handed]
  | pass hbody | read hbody => simp [AwaitThread.bridges, AwaitShared.handed, hbody]
  | @post cb _ hbody =>
    by_cases hcb : cb = fut <;> simp [AwaitThread.bridges, AwaitShared.handed, hbody, hcb]
    omega
  | @resolve cb _ _ hqueue | @refuse cb _ _ hqueue =>
    by_cases hcb : cb = fut <;> simp [AwaitThread.bridges, AwaitShared.handed, hqueue, hcb]
    omega

end

/-! ## What holds of every run -/

/-- The task is done, and this is its outcome. -/
def IsOutcome (T : TaskType V E) (d : T.Inner) (outcome : TaskOutcome V E) : Prop :=
  T.done d = true ∧ outcome = T.result d

/-- What holds of the awaits in every run. -/
structure AwaitInv [DecidableEq ι] [Fintype ι] (c : AwaitConfig T κ ι) : Prop where
  reach : (completionMachine T (fun _ => bridgeCallback) ι).Reachable anyStep (completionOf c)
  /-- The callback of a future is registered once, with the future. -/
  created : ∀ fut, c.shared.completion.registered.count fut =
    if (c.shared.futures fut).isSome then 1 else 0
  handed : ∀ fut, total (AwaitShared.handed fut) (AwaitThread.bridges fut) c ≤
    c.shared.completion.called.count fut
  resolved : ∀ fut, fut ∈ c.shared.resolved ↔
    ∃ outcome, c.shared.futures fut = some (.done outcome)
  queued : ∀ p ∈ c.shared.queue, IsOutcome T c.shared.completion.inner p.2
  done : ∀ fut outcome, c.shared.futures fut = some (.done outcome) →
    IsOutcome T c.shared.completion.inner outcome
  calls : ∀ t fut b, (c.loc t).body = some (fut, b) → T.done c.shared.completion.inner = true ∧
    ∀ outcome, b = .post outcome → outcome = T.result c.shared.completion.inner
  /-- The callback of a pending future was not called, or its outcome is on its way. -/
  handled : ∀ fut ∈ c.shared.completion.called, c.shared.futures fut = some .pending →
    (∃ t, (c.loc t).body.map Prod.fst = some fut) ∨ fut ∈ c.shared.queue.map Prod.fst

section
variable [DecidableEq ι] [Fintype ι] {c : AwaitConfig T κ ι} {t : Fin T.futures ⊕ ι}
  {s' : AwaitShared T.Inner κ (TaskOutcome V E)} {l' : AwaitThread T.Work κ (TaskOutcome V E)}
  {a : AwaitAct κ}

/-- The invariant holds at the start. -/
theorem AwaitInv.init : AwaitInv (awaitStart T κ ι) where
  reach := .refl
  created _ := rfl
  handed fut := by
    simp [total, awaitStart, AwaitShared.handed, AwaitThread.bridges]
  resolved _ := ⟨nofun, nofun⟩
  queued := nofun
  done := nofun
  calls := nofun
  handled := nofun

/-- A callback is called as often as it is registered, at most. -/
theorem AwaitInv.called_le (hI : AwaitInv c) (fut : κ) :
    c.shared.completion.called.count fut ≤ c.shared.completion.registered.count fut := by
  have hadded := congrArg Prod.fst (reachable_added hI.reach)
  rw [sum_adds_fst, total, Completion.credit, Prod.fst_add, Prod.fst_add, add_assoc] at hadded
  have hcount := congrArg (Multiset.count fut) hadded
  have hcalled : Multiset.count fut (completionOf c).shared.added.1 =
      c.shared.completion.called.count fut := Multiset.coe_count ..
  rw [Multiset.count_add, Multiset.coe_count, hcalled] at hcount
  exact hcount ▸ Nat.le_add_right ..

/-- The future of a thread that calls a callback was created. -/
theorem AwaitInv.step_created (hI : AwaitInv c) (h : AwaitTrans T t c.shared (c.loc t) a s' l')
    (fut : κ) : s'.completion.registered.count fut = if (s'.futures fut).isSome then 1 else 0 := by
  have hold := hI.created fut
  cases h with
  | task hbody hp =>
    rw [completionStep_registered hp]
    exact hold
  | @await cb _ _ hbody hnew hp =>
    rw [completionStep_registered hp]
    by_cases hcb : cb = fut
    · subst hcb
      simp [hold, hnew]
    · simp [hold, hcb, Ne.symm hcb]
  | skip | pass | read | post | cancelNot | refuse => exact hold
  | @cancel cb hbody hpending | @resolve cb _ _ hqueue hpending =>
    by_cases hcb : cb = fut
    · subst hcb
      simp [hold, hpending]
    · simp [hold, Ne.symm hcb]

/-- What is resolved is done. -/
theorem AwaitInv.step_resolved (hI : AwaitInv c) (h : AwaitTrans T t c.shared (c.loc t) a s' l')
    (fut : κ) : fut ∈ s'.resolved ↔ ∃ outcome, s'.futures fut = some (.done outcome) := by
  have hold := hI.resolved fut
  cases h with
  | @await cb _ _ hbody hnew hp | @cancel cb hbody hnew =>
    by_cases hcb : cb = fut
    · subst hcb
      simp [hold, hnew]
    · simp [hold, Ne.symm hcb]
  | @resolve cb _ _ hqueue hpending =>
    by_cases hcb : cb = fut
    · subst hcb
      simp
    · simp [hold, Ne.symm hcb]
  | _ => exact hold

/-- Once the task is done, a step leaves it and its outcome as they are. -/
theorem AwaitInv.inner_step (hT : T.Lawful) (hI : AwaitInv c)
    (hst : (awaitMachine T κ ι).step c (t, a) = some ⟨s', Function.update c.loc t l'⟩)
    (hdone : T.done c.shared.completion.inner = true) :
    s'.completion.inner = c.shared.completion.inner :=
  inner_of_done hT hI.reach hdone (completionOf_step hst)

/-- What is posted, and what futures hold, stays the outcome of the task. -/
theorem AwaitInv.step_queued (hI : AwaitInv c) (h : AwaitTrans T t c.shared (c.loc t) a s' l')
    (hinner : T.done c.shared.completion.inner = true →
      s'.completion.inner = c.shared.completion.inner) :
    (∀ p ∈ s'.queue, IsOutcome T s'.completion.inner p.2) ∧
      ∀ fut outcome, s'.futures fut = some (.done outcome) →
        IsOutcome T s'.completion.inner outcome := by
  have hkeep : ∀ {outcome}, IsOutcome T c.shared.completion.inner outcome →
      IsOutcome T s'.completion.inner outcome := by
    rintro outcome ⟨hdone, rfl⟩
    rw [hinner hdone]
    exact ⟨hdone, rfl⟩
  have hqueued : ∀ p ∈ c.shared.queue, IsOutcome T s'.completion.inner p.2 :=
    fun p hp => hkeep (hI.queued p hp)
  have hdone : ∀ fut outcome, c.shared.futures fut = some (.done outcome) →
      IsOutcome T s'.completion.inner outcome := fun fut outcome hf => hkeep (hI.done fut outcome hf)
  have hupdate : ∀ {cb fut st outcome},
      Function.update c.shared.futures cb st fut = some (.done outcome) →
      (st = some (.done outcome) → IsOutcome T s'.completion.inner outcome) →
        IsOutcome T s'.completion.inner outcome := by
    intro cb fut st outcome hf hst
    rw [Function.update_apply] at hf
    split at hf
    · exact hst hf
    · exact hdone fut outcome hf
  cases h with
  | await | cancel => exact ⟨hqueued, fun fut outcome hf => hupdate hf nofun⟩
  | @post fut outcome hbody =>
    refine ⟨fun p hp => ?_, hdone⟩
    rcases List.mem_append.1 hp with hp | hp
    · exact hqueued p hp
    · obtain ⟨hd, hres⟩ := hI.calls t fut _ hbody
      rw [List.mem_singleton.1 hp]
      exact ⟨hd, hres outcome rfl⟩
  | resolve hqueue hpending =>
    rw [hqueue] at hqueued
    refine ⟨fun p hp => hqueued p (.tail _ hp), fun fut outcome hf => hupdate hf fun he => ?_⟩
    rw [← FutureState.done.inj (Option.some.inj he)]
    exact hqueued _ (.head _)
  | refuse hqueue =>
    rw [hqueue] at hqueued
    exact ⟨fun p hp => hqueued p (.tail _ hp), hdone⟩
  | _ => exact ⟨hqueued, hdone⟩

/-- A callback runs only where the task is done, and posts its outcome. -/
theorem AwaitInv.step_calls (hT : T.Lawful) (hI : AwaitInv c)
    (h : AwaitTrans T t c.shared (c.loc t) a s' l')
    (hinner : T.done c.shared.completion.inner = true →
      s'.completion.inner = c.shared.completion.inner)
    (j : Fin T.futures ⊕ ι) (fut : κ) (b : BridgePc (TaskOutcome V E))
    (hj : (Function.update c.loc t l' j).body = some (fut, b)) :
    T.done s'.completion.inner = true ∧
      ∀ outcome, b = .post outcome → outcome = T.result s'.completion.inner := by
  have hold : ∀ j b, (c.loc j).body = some (fut, b) → T.done s'.completion.inner = true ∧
      ∀ outcome, b = .post outcome → outcome = T.result s'.completion.inner := by
    intro j b hj
    obtain ⟨hd, hres⟩ := hI.calls j fut b hj
    rw [hinner hd]
    exact ⟨hd, hres⟩
  by_cases hjt : j = t
  · subst hjt
    rw [Function.update_self] at hj
    cases h with
    | task hbody hp =>
      obtain ⟨cb, hcb, he⟩ := Option.map_eq_some_iff.1 hj
      cases he
      have hafter : (c.loc j).pc.afterDone = true := by
        generalize (c.loc j).pc = m at hcb
        cases m with
        | calling queue =>
          cases queue with
          | nil => cases hcb
          | cons => rfl
        | _ => cases hcb
      have hd := reachable_afterDone hT hI.reach j hafter
      rw [hinner hd]
      exact ⟨hd, nofun⟩
    | pass hbody => cases hj; exact ⟨(hold j _ hbody).1, nofun⟩
    | read hbody =>
      cases hj
      exact ⟨(hold j _ hbody).1, fun outcome he => (BridgePc.post.inj he).symm⟩
    | await | skip | post => cases hj
    | cancel | cancelNot | resolve | refuse => exact hold j b hj
  · rw [Function.update_of_ne hjt] at hj
    exact hold j b hj

omit [DecidableEq ι] [Fintype ι] in
/-- A future that is pending after another state was set is one that was pending before. -/
theorem pending_of_update {R : Type} {f : κ → Option (FutureState R)} {cb fut : κ}
    {st : FutureState R} (hst : st ≠ .pending)
    (h : Function.update f cb (some st) fut = some .pending) :
    fut ≠ cb ∧ f fut = some .pending := by
  rw [Function.update_apply] at h
  split at h
  · exact absurd (Option.some.inj h) hst
  · next hne => exact ⟨hne, h⟩

/-- The outcome of a pending future whose callback was called stays on its way. -/
theorem AwaitInv.step_handled (hI : AwaitInv c) (h : AwaitTrans T t c.shared (c.loc t) a s' l')
    (fut : κ) (hcalled : fut ∈ s'.completion.called) (hpending : s'.futures fut = some .pending) :
    (∃ j, (Function.update c.loc t l' j).body.map Prod.fst = some fut) ∨
      fut ∈ s'.queue.map Prod.fst := by
  -- the thread that moves comes to the callback, or another thread is in it, or the queue has it
  have hmoved : l'.body.map Prod.fst = some fut →
      ∃ j, (Function.update c.loc t l' j).body.map Prod.fst = some fut :=
    fun hl => ⟨t, by rw [Function.update_self]; exact hl⟩
  have hlasts : ((c.loc t).body.map Prod.fst = some fut → l'.body.map Prod.fst = some fut) →
      (∃ j, (c.loc j).body.map Prod.fst = some fut) →
        ∃ j, (Function.update c.loc t l' j).body.map Prod.fst = some fut := by
    rintro hl ⟨j, hj⟩
    by_cases hjt : j = t
    · subst hjt
      exact hmoved (hl hj)
    · exact ⟨j, by rw [Function.update_of_ne hjt]; exact hj⟩
  have hold := hI.handled fut
  cases h with
  | task hbody hp =>
    rw [completionStep_called hp] at hcalled
    rcases List.mem_append.1 hcalled with hnew | hcalled
    · rw [Option.mem_toList] at hnew
      exact .inl (hmoved (by rw [hnew]; rfl))
    · refine (hold hcalled hpending).imp_left (hlasts fun hb => ?_)
      rw [hbody] at hb
      cases hb
  | @await cb _ _ hbody hnew hp =>
    have hregistered := hI.created cb
    have hcount := hI.called_le cb
    rw [hregistered, hnew, Option.isSome_none, if_neg nofun] at hcount
    rw [completionStep_called hp] at hcalled
    have hidle : (c.loc t).pc.calls = none := by
      generalize (c.loc t).pc = m at hp
      cases m with
      | idle => rfl
      | working w => cases hp
      | calling queue => cases queue <;> cases hp
      | _ => cases hp
    rw [hidle] at hcalled
    have hne : fut ≠ cb := by
      rintro rfl
      have hpos := List.count_pos_iff.2 hcalled
      change 0 < c.shared.completion.called.count fut at hpos
      omega
    change Function.update c.shared.futures cb _ fut = _ at hpending
    rw [Function.update_of_ne hne] at hpending
    refine (hold hcalled hpending).imp_left (hlasts fun hb => ?_)
    rw [hbody] at hb
    cases hb
  | @skip cb hbody hcancelled =>
    refine (hold hcalled hpending).imp_left (hlasts fun hb => ?_)
    rw [hbody] at hb
    cases hb
    rw [hcancelled] at hpending
    cases hpending
  | pass hbody | read hbody =>
    refine (hold hcalled hpending).imp_left (hlasts fun hb => ?_)
    rw [hbody] at hb
    exact hb
  | @post cb outcome hbody =>
    rw [List.map_append, List.mem_append]
    by_cases hcb : cb = fut
    · subst hcb
      exact .inr (.inr (List.mem_singleton_self cb))
    · refine (hold hcalled hpending).imp (hlasts fun hb => ?_) .inl
      rw [hbody] at hb
      exact absurd (Option.some.inj hb) hcb
  | cancel =>
    obtain ⟨-, hpending⟩ := pending_of_update (by nofun) hpending
    exact (hold hcalled hpending).imp_left (hlasts id)
  | cancelNot => exact (hold hcalled hpending).imp_left (hlasts id)
  | resolve hqueue =>
    obtain ⟨hne, hpending⟩ := pending_of_update (by nofun) hpending
    refine (hold hcalled hpending).imp (hlasts id) fun hmem => ?_
    rw [hqueue] at hmem
    exact (List.mem_cons.1 hmem).resolve_left hne
  | @refuse cb _ _ hqueue hno =>
    have hne : fut ≠ cb := by
      rintro rfl
      exact hno hpending
    refine (hold hcalled hpending).imp (hlasts id) fun hmem => ?_
    rw [hqueue] at hmem
    exact (List.mem_cons.1 hmem).resolve_left hne

/-- A step keeps the invariant. -/
theorem AwaitInv.step (hT : T.Lawful) {c' : AwaitConfig T κ ι}
    {a : (Fin T.futures ⊕ ι) × AwaitAct κ} (hI : AwaitInv c)
    (hst : (awaitMachine T κ ι).step c a = some c') : AwaitInv c' := by
  obtain ⟨t, a⟩ := a
  have hreach := hI.reach.trans (completionOf_step hst)
  obtain ⟨s', l', hp, rfl⟩ := step_iff.1 hst
  have ht : AwaitTrans T t c.shared (c.loc t) a s' l' := awaitStep_trans hp
  have hinner := hI.inner_step hT hst
  obtain ⟨hqueued, hdone⟩ := hI.step_queued ht hinner
  refine ⟨hreach, hI.step_created ht, fun fut => ?_, hI.step_resolved ht, hqueued, hdone,
    hI.step_calls hT ht hinner, hI.step_handled ht⟩
  have hold := hI.handed fut
  have hmove := ht.handed fut
  change total _ _ ⟨s', Function.update c.loc t l'⟩ ≤ s'.completion.called.count fut
  rw [total_split _ _ c t] at hold
  rw [total_update]
  omega

end

/-! ## Dead futures -/

/-- The callback has looked whether its future was cancelled, and found that it was not. -/
def BridgePc.passed {R : Type} : BridgePc R → Bool
  | .check => false
  | .read | .post _ => true

/-- The outcome of a future is on its way to it: its callback has found it alive, or has posted to
the loop. -/
def OnItsWay (c : AwaitConfig T κ ι) (fut : κ) : Prop :=
  (∃ t b, (c.loc t).body = some (fut, b) ∧ b.passed = true) ∨ fut ∈ c.shared.queue.map Prod.fst

/-- No future is cancelled while its outcome is on its way. -/
def cancelsInTime (c : AwaitConfig T κ ι) (a : (Fin T.futures ⊕ ι) × AwaitAct κ) : Prop :=
  ∀ fut, a.2 = .cancel fut → c.shared.futures fut = some .pending → ¬ OnItsWay c fut

/-- The futures of the task have finished, no call is in progress, and the loop has nothing left to
execute. -/
def Settled (c : AwaitConfig T κ ι) : Prop :=
  AtRest (completionOf c) ∧ (∀ t, (c.loc t).body = none) ∧ c.shared.queue = []

/-- Awaits that resolve as they should: nothing is executed on a future that is cancelled or done,
no future is resolved twice, or with anything but the outcome of the task, and in the end every
future is resolved or was cancelled. -/
structure ResolvedOnce (c : AwaitConfig T κ ι) : Prop where
  valid : c.shared.invalid = []
  once : ∀ fut, c.shared.resolved.count fut ≤ 1
  outcome : ∀ fut outcome, c.shared.futures fut = some (.done outcome) →
    IsOutcome T c.shared.completion.inner outcome ∧ c.shared.resolved.count fut = 1
  settled : Settled c → ∀ fut, c.shared.futures fut ≠ some .pending

section
variable [DecidableEq ι] {c : AwaitConfig T κ ι} {t : Fin T.futures ⊕ ι}
  {s' : AwaitShared T.Inner κ (TaskOutcome V E)} {l' : AwaitThread T.Work κ (TaskOutcome V E)}
  {a : AwaitAct κ}

/-- An outcome comes on its way only when its callback finds the future alive. -/
theorem AwaitTrans.onItsWay_of (h : AwaitTrans T t c.shared (c.loc t) a s' l') {fut : κ}
    (hway : OnItsWay ⟨s', Function.update c.loc t l'⟩ fut) :
    OnItsWay c fut ∨ c.shared.futures fut ≠ some .cancelled ∧ s' = c.shared := by
  have hold : (∃ j b, (Function.update c.loc t l' j).body = some (fut, b) ∧ b.passed = true) →
      OnItsWay c fut ∨ ∃ b, l'.body = some (fut, b) ∧ b.passed = true := by
    rintro ⟨j, b, hj, hb⟩
    by_cases hjt : j = t
    · subst hjt
      rw [Function.update_self] at hj
      exact .inr ⟨b, hj, hb⟩
    · rw [Function.update_of_ne hjt] at hj
      exact .inl (.inl ⟨j, b, hj, hb⟩)
  cases h with
  | task hbody hp =>
    rcases hway with hway | hmem
    · refine .inl ((hold hway).resolve_right ?_)
      rintro ⟨b, hl, hb⟩
      obtain ⟨cb, -, he⟩ := Option.map_eq_some_iff.1 hl
      cases he
      cases hb
    · exact .inl (.inr hmem)
  | await | skip =>
    rcases hway with hway | hmem
    · refine .inl ((hold hway).resolve_right ?_)
      rintro ⟨b, hl, -⟩
      cases hl
    · exact .inl (.inr hmem)
  | pass hbody hno =>
    rcases hway with hway | hmem
    · rcases hold hway with hway | ⟨b, hl, hb⟩
      · exact .inl hway
      · cases hl
        exact .inr ⟨hno, rfl⟩
    · exact .inl (.inr hmem)
  | read hbody =>
    rcases hway with hway | hmem
    · rcases hold hway with hway | ⟨b, hl, hb⟩
      · exact .inl hway
      · cases hl
        exact .inl (.inl ⟨t, _, hbody, rfl⟩)
    · exact .inl (.inr hmem)
  | @post cb outcome hbody =>
    rcases hway with hway | hmem
    · refine .inl ((hold hway).resolve_right ?_)
      rintro ⟨b, hl, -⟩
      cases hl
    · rw [List.map_append, List.mem_append] at hmem
      rcases hmem with hmem | hmem
      · exact .inl (.inr hmem)
      · rw [List.mem_singleton.1 hmem]
        exact .inl (.inl ⟨t, _, hbody, rfl⟩)
  | cancel | cancelNot =>
    rw [Function.update_eq_self] at hway
    exact .inl hway
  | resolve hqueue | refuse hqueue =>
    rw [Function.update_eq_self] at hway
    rcases hway with hway | hmem
    · exact .inl (.inl hway)
    · exact .inl (.inr (by rw [hqueue]; exact .tail _ hmem))

/-- An outcome that is on its way to a dead future stays on its way, until the loop executes it. -/
theorem AwaitTrans.onItsWay (h : AwaitTrans T t c.shared (c.loc t) a s' l') {fut : κ}
    (hdead : c.shared.futures fut = some .cancelled) (hway : OnItsWay c fut) :
    s'.futures fut = some .cancelled ∧
      (OnItsWay ⟨s', Function.update c.loc t l'⟩ fut ∨ s'.invalid ≠ []) := by
  have hupdate : ∀ {cb st}, c.shared.futures cb ≠ some .cancelled →
      Function.update c.shared.futures cb st fut = some .cancelled := by
    intro cb st hcb
    rw [Function.update_of_ne, hdead]
    rintro rfl
    exact hcb hdead
  have hkeep : (∀ b, (c.loc t).body = some (fut, b) → b.passed = true →
        OnItsWay ⟨s', Function.update c.loc t l'⟩ fut) →
      (fut ∈ c.shared.queue.map Prod.fst → fut ∈ s'.queue.map Prod.fst) →
        OnItsWay ⟨s', Function.update c.loc t l'⟩ fut := by
    intro hmoved hqueue
    rcases hway with ⟨j, b, hj, hb⟩ | hmem
    · by_cases hjt : j = t
      · subst hjt
        exact hmoved b hj hb
      · refine .inl ⟨j, b, ?_, hb⟩
        change (Function.update c.loc t l' j).body = _
        rw [Function.update_of_ne hjt, hj]
    · exact .inr (hqueue hmem)
  have hself : l'.body = (c.loc t).body → ∀ b, (c.loc t).body = some (fut, b) → b.passed = true →
      OnItsWay ⟨s', Function.update c.loc t l'⟩ fut := by
    intro hsame b hb hpassed
    refine .inl ⟨t, b, ?_, hpassed⟩
    change (Function.update c.loc t l' t).body = _
    rw [Function.update_self, hsame, hb]
  cases h with
  | task hbody =>
    refine ⟨hdead, .inl (hkeep (fun b hb => ?_) id)⟩
    rw [hbody] at hb
    cases hb
  | await hbody hnew =>
    refine ⟨hupdate (by rw [hnew]; nofun), .inl (hkeep (fun b hb => ?_) id)⟩
    rw [hbody] at hb
    cases hb
  | skip hbody | pass hbody =>
    refine ⟨hdead, .inl (hkeep (fun b hb hpassed => ?_) id)⟩
    rw [hbody] at hb
    cases hb
    cases hpassed
  | read hbody =>
    refine ⟨hdead, .inl (hkeep (fun b hb _ => ?_) id)⟩
    rw [hbody] at hb
    cases hb
    refine .inl ⟨t, .post (T.result c.shared.completion.inner), ?_, rfl⟩
    change (Function.update c.loc t _ t).body = _
    rw [Function.update_self]
  | @post cb outcome hbody =>
    refine ⟨hdead, .inl (hkeep (fun b hb _ => ?_) fun hmem => ?_)⟩
    · rw [hbody] at hb
      cases hb
      right
      rw [List.map_append, List.mem_append]
      exact .inr (List.mem_singleton_self _)
    · rw [List.map_append, List.mem_append]
      exact .inl hmem
  | cancel hbody hpending =>
    exact ⟨hupdate (by rw [hpending]; nofun), .inl (hkeep (hself rfl) id)⟩
  | cancelNot => exact ⟨hdead, .inl (hkeep (hself rfl) id)⟩
  | @resolve cb _ _ hqueue hpending =>
    refine ⟨hupdate (by rw [hpending]; nofun), .inl (hkeep (hself rfl) fun hmem => ?_)⟩
    rw [hqueue] at hmem
    refine (List.mem_cons.1 hmem).resolve_left ?_
    rintro rfl
    rw [hdead] at hpending
    cases hpending
  | refuse => exact ⟨hdead, .inr (List.cons_ne_nil _ _)⟩

section
variable [Fintype ι]

/-- The callback of a future was called once, at most. -/
theorem AwaitInv.called_le_one (hI : AwaitInv c) (fut : κ) :
    c.shared.completion.called.count fut ≤ 1 := by
  refine (hI.called_le fut).trans ?_
  rw [hI.created]
  split
  · exact le_rfl
  · exact Nat.zero_le 1

/-- The loop has the outcome of a future once, at most, queued or executed. -/
theorem AwaitInv.handed_le (hI : AwaitInv c) (fut : κ) : c.shared.handed fut ≤ 1 :=
  calc c.shared.handed fut
      ≤ total (AwaitShared.handed fut) (AwaitThread.bridges fut) c := Nat.le_add_right ..
    _ ≤ c.shared.completion.called.count fut := hI.handed fut
    _ ≤ 1 := hI.called_le_one fut

/-- What the loop executes first is for a future that is pending or cancelled. -/
theorem AwaitInv.queued_alive (hI : AwaitInv c) {fut : κ} {outcome : TaskOutcome V E}
    {queue : List (κ × TaskOutcome V E)} (hqueue : c.shared.queue = (fut, outcome) :: queue) :
    c.shared.futures fut = some .pending ∨ c.shared.futures fut = some .cancelled := by
  have hone := hI.handed_le fut
  rw [AwaitShared.handed, hqueue, List.countP_cons_of_pos (by simp)] at hone
  rcases hst : c.shared.futures fut with - | st
  · have hcalled : c.shared.handed fut ≤ c.shared.completion.called.count fut :=
      (Nat.le_add_right ..).trans (hI.handed fut)
    have hreg := hI.created fut
    have hle := hI.called_le fut
    rw [AwaitShared.handed, hqueue, List.countP_cons_of_pos (by simp)] at hcalled
    rw [hst, Option.isSome_none, if_neg nofun] at hreg
    omega
  · cases st with
    | pending => exact .inl rfl
    | cancelled => exact .inr rfl
    | done outcome' =>
      have hpos := List.count_pos_iff.2 ((hI.resolved fut).2 ⟨outcome', hst⟩)
      omega

/-- The awaits of a run resolve as they should where nothing was executed on a dead future. -/
theorem AwaitInv.resolvedOnce (hT : T.Lawful) (hI : AwaitInv c) (hvalid : c.shared.invalid = []) :
    ResolvedOnce c where
  valid := hvalid
  once fut := by
    have hone := hI.handed_le fut
    rw [AwaitShared.handed] at hone
    omega
  outcome fut outcome hdone := by
    have hone := hI.handed_le fut
    have hpos := List.count_pos_iff.2 ((hI.resolved fut).2 ⟨outcome, hdone⟩)
    rw [AwaitShared.handed] at hone
    exact ⟨hI.done fut outcome hdone, by omega⟩
  settled hsettled fut hpending := by
    obtain ⟨hrest, hbody, hqueue⟩ := hsettled
    have hadded := congrArg Prod.fst (added_of_atRest hT hI.reach hrest).2
    rw [sum_adds_fst] at hadded
    have hcalled : c.shared.completion.called.Perm c.shared.completion.registered :=
      Multiset.coe_eq_coe.1 hadded
    have hreg := hI.created fut
    rw [hpending, Option.isSome_some, if_pos rfl] at hreg
    have hmem : fut ∈ c.shared.completion.called :=
      hcalled.mem_iff.2 (List.count_pos_iff.1 (hreg ▸ Nat.one_pos))
    rcases hI.handled fut hmem hpending with ⟨t, ht⟩ | hmem
    · rw [hbody] at ht
      cases ht
    · rw [hqueue] at hmem
      cases hmem

/-- Nothing was executed on a dead future, and nothing is on its way to one. -/
structure Alive (c : AwaitConfig T κ ι) : Prop where
  inv : AwaitInv c
  valid : c.shared.invalid = []
  alive : ∀ fut, c.shared.futures fut = some .cancelled → ¬ OnItsWay c fut

/-- A step that cancels no future with its outcome on its way keeps that. -/
theorem Alive.step (hT : T.Lawful) {c' : AwaitConfig T κ ι}
    {a : (Fin T.futures ⊕ ι) × AwaitAct κ} (hA : Alive c) (hin : cancelsInTime c a)
    (hst : (awaitMachine T κ ι).step c a = some c') : Alive c' := by
  have hI' := hA.inv.step hT hst
  obtain ⟨t, a⟩ := a
  obtain ⟨s', l', hp, rfl⟩ := step_iff.1 hst
  have ht : AwaitTrans T t c.shared (c.loc t) a s' l' := awaitStep_trans hp
  have hway : ∀ fut, OnItsWay ⟨s', Function.update c.loc t l'⟩ fut →
      OnItsWay c fut ∨ c.shared.futures fut ≠ some .cancelled ∧ s' = c.shared :=
    fun _ => ht.onItsWay_of
  refine ⟨hI', ?_, fun fut hdead hon => ?_⟩
  · cases ht with
    | @refuse fut _ _ hqueue hno =>
      rcases hA.inv.queued_alive hqueue with hpending | hdead
      · exact absurd hpending hno
      · refine absurd (.inr ?_) (hA.alive fut hdead)
        rw [hqueue]
        exact .head _
    | _ => exact hA.valid
  · change s'.futures fut = some .cancelled at hdead
    rcases hway fut hon with hold | ⟨hno, hsame⟩
    · cases ht with
      | @await cb | @resolve cb =>
        change Function.update c.shared.futures cb _ fut = _ at hdead
        rw [Function.update_apply] at hdead
        split at hdead
        · cases hdead
        · exact hA.alive fut hdead hold
      | @cancel cb hbody hpending =>
        change Function.update c.shared.futures cb _ fut = _ at hdead
        rw [Function.update_apply] at hdead
        split at hdead
        · next he =>
          subst he
          exact hin fut rfl hpending hold
        · exact hA.alive fut hdead hold
      | _ => exact hA.alive fut hdead hold
    · rw [hsame] at hdead
      exact hno hdead

/-- Something was executed on a dead future, or will be. -/
def Doomed (c : AwaitConfig T κ ι) : Prop :=
  c.shared.invalid ≠ [] ∨ ∃ fut, c.shared.futures fut = some .cancelled ∧ OnItsWay c fut

omit [Fintype ι] in
/-- That does not change any more. -/
theorem Doomed.step {c' : AwaitConfig T κ ι} {a : (Fin T.futures ⊕ ι) × AwaitAct κ}
    (hD : Doomed c) (hst : (awaitMachine T κ ι).step c a = some c') : Doomed c' := by
  obtain ⟨t, a⟩ := a
  obtain ⟨s', l', hp, rfl⟩ := step_iff.1 hst
  have ht : AwaitTrans T t c.shared (c.loc t) a s' l' := awaitStep_trans hp
  rcases hD with hinvalid | ⟨fut, hdead, hway⟩
  · left
    change s'.invalid ≠ []
    cases ht with
    | refuse => exact List.cons_ne_nil _ _
    | _ => exact hinvalid
  · obtain ⟨hdead', hway' | hinvalid⟩ := ht.onItsWay hdead hway
    · exact .inr ⟨fut, hdead', hway'⟩
    · exact .inl hinvalid

omit [Fintype ι] in
/-- A cancel of a future with its outcome on its way leads to it. -/
theorem Doomed.of_cancel {c' : AwaitConfig T κ ι} {a : (Fin T.futures ⊕ ι) × AwaitAct κ}
    (hout : ¬ cancelsInTime c a) (hst : (awaitMachine T κ ι).step c a = some c') : Doomed c' := by
  obtain ⟨t, a⟩ := a
  obtain ⟨s', l', hp, rfl⟩ := step_iff.1 hst
  have ht : AwaitTrans T t c.shared (c.loc t) a s' l' := awaitStep_trans hp
  simp only [cancelsInTime, not_forall, not_not] at hout
  obtain ⟨fut, rfl, hpending, hway⟩ := hout
  right
  cases ht with
  | cancel =>
    refine ⟨fut, Function.update_self .., ?_⟩
    rw [Function.update_eq_self]
    exact hway
  | cancelNot hno => exact absurd hpending hno

end

end

/-- In a run in which no future is cancelled while its outcome is on its way, all awaits resolve as
they should; and in a run that ends with nothing left to do and in which they do, no future is
cancelled while its outcome is on its way. -/
theorem await_resolves (k : TaskKind V E) (κ ι : Type) [DecidableEq κ] [DecidableEq ι] [Fintype ι]
    (as : List ((Fin k.type.futures ⊕ ι) × AwaitAct κ)) :
    ((awaitMachine k.type κ ι).AllSteps cancelsInTime (awaitStart k.type κ ι) as →
      (awaitMachine k.type κ ι).AllStates ResolvedOnce (awaitStart k.type κ ι) as) ∧
    ∀ c, (awaitMachine k.type κ ι).run (awaitStart k.type κ ι) as = some c → Settled c →
      (awaitMachine k.type κ ι).AllStates ResolvedOnce (awaitStart k.type κ ι) as →
        (awaitMachine k.type κ ι).AllSteps cancelsInTime (awaitStart k.type κ ι) as := by
  constructor
  · refine AllSteps.allStates (I := Alive) (fun c hA => hA.inv.resolvedOnce k.lawful hA.valid)
      (fun c a c' hA hin hst => hA.step k.lawful hin hst) ⟨.init, rfl, nofun⟩
  · intro c hrun hsettled hall
    refine (allSteps_or_of_run (I := fun _ => True) (D := Doomed) (fun _ _ _ _ _ => trivial)
      (fun _ _ _ _ hD hst => hD.step hst) (fun _ _ _ _ hout hst => .of_cancel hout hst) as trivial
      hrun).resolve_right ?_
    rintro (hinvalid | ⟨fut, -, ⟨t, b, hbody, -⟩ | hmem⟩)
    · exact hinvalid (hall.last hrun).valid
    · rw [hsettled.2.1] at hbody
      cases hbody
    · rw [hsettled.2.2] at hmem
      cases hmem

/-- A task is awaited and completes, its callback finds the future alive, the awaiting asyncio task
is cancelled, and the callback posts the outcome. -/
def cancelBetweenRun : List ((Fin sevenTask.type.futures ⊕ Unit) × AwaitAct Unit) :=
  (.inr (), .await ()) :: List.replicate 6 (.inr (), .go) ++
    List.replicate 8 (.inl ⟨0, Nat.one_pos⟩, .go) ++ (.inr (), .cancel ()) ::
      List.replicate 3 (.inl ⟨0, Nat.one_pos⟩, .go) ++ [(.inr (), .exec)]

/-- In that run `set_result` is executed on the cancelled future. -/
theorem dead_future_resolved :
    ∃ c, (awaitMachine sevenTask.type Unit Unit).run (awaitStart sevenTask.type Unit Unit)
        cancelBetweenRun = some c ∧ c.shared.invalid = [()] ∧ ¬ ResolvedOnce c :=
  ⟨_, rfl, rfl, fun h => nomatch h.valid⟩

end Hypertile
