import Hypertile.System.Polls

/-!
# What a task waits for

A task that was suspended by its last poll waits for what this poll has found pending. The
invariants say that it is not left alone with it: a handle that it has found pending was last polled
with its waker, an event that has not fired has it among the registered, and once the waker of the
handle has been woken or the event has fired, the task is woken, is about to be, or has completed
(`WaitsFor`). `BlockWaits` is the same for the thread in `block_on`.
-/

namespace Hypertile

open Machine Machine.Threads

variable {κ ε ι F T P : Type} [DecidableEq κ] [DecidableEq ε] [DecidableEq ι]
  {aw : Awaits κ} {fut : κ → F} {s s' : TaskSystem κ ε ι F T P} {k : κ} {i : ι}
  {σ : Shared ι F T P (Awaiter κ)} {pc : Pc F T P (Awaiter κ)}
  {G : TaskSystem κ ε ι F T P → SystemAct κ ε ι F T P → Prop}

/-! ## Suspended tasks -/

/-- What is known of the states before and after a step. -/
structure SystemOk (aw : Awaits κ) (fut : κ → F) (s : TaskSystem κ ε ι F T P) : Prop where
  cells : CellsReached aw fut s
  polls : PollsOk aw s

/-- `SystemOk` in every state reached. -/
theorem reachable_systemOk (h : (systemMachine aw fut).Reachable G s) : SystemOk aw fut s :=
  ⟨reachable_cell h, reachable_pollsOk h⟩

/-- A task that is suspended has found something pending. -/
def SuspendedWaits (s : TaskSystem κ ε ι F T P) : Prop :=
  ∀ p, Suspended (s.cell p) → s.pendingOn p ≠ []

omit [DecidableEq ε] in
/-- A call that has moved suspends its task only at the end of a poll that was `Pending`. -/
theorem SuspendedWaits.keep {a : Label F T P (Awaiter κ)} (h : SuspendedWaits s)
    (ht : CallTrans i (s.cell k).shared ((s.cell k).loc i) a σ pc)
    (hend : ∀ fut, a = .polled fut .pending → s.pendingOn k ≠ []) (p : κ)
    (hp : Suspended ((s.withCall k i σ pc).cell p)) : s.pendingOn p ≠ [] := by
  by_cases hk : p = k
  · subst hk
    rw [TaskSystem.withCall_self] at hp
    rcases hp.of_step rfl ht with hp | ⟨fut, ha⟩
    · exact h p hp
    · exact hend fut ha
  · rw [TaskSystem.withCall_of_ne hk] at hp
    exact h p hp

/-- `SuspendedWaits` in every state reached. -/
theorem reachable_suspendedWaits [Fintype ι] (h : (systemMachine aw fut).Reachable G s) :
    SuspendedWaits s := by
  refine system_invariant (J := SystemOk aw fut) h (fun _ h => reachable_systemOk h) ?_ ?_
  · intro p hp
    rcases hp with hp | ⟨i, hi⟩
    · cases hp
    · cases hi
  intro s s' hok hok' hI hst
  -- a task in whose poll a handle or an event was polled is not suspended
  have polled : ∀ {p : κ}, (∃ j, ((s'.cell p).loc j).polling = true) → ¬ Suspended (s'.cell p) :=
    fun ⟨j, hj⟩ => not_suspended (reachable_ownHandles (hok'.cells _)) hj
  cases hst with
  | spawn | fire | wakeBlocked | unpark => exact hI
  | @call k i a σ pc hk ha hend hst =>
    have ht := callStep_trans hst
    have hnonempty : ∀ fut, a = .polled fut .pending → s.pendingOn k ≠ [] := by
      intro fut ha
      have hend := hend fut .pending ha
      simp only [TaskSystem.mayEnd, Bool.and_eq_true, Bool.not_eq_true', List.isEmpty_eq_false_iff]
        at hend
      exact hend.2
    have hne : a ≠ .unwind := by
      rintro rfl
      cases ha
    have hnoted := ht.noted hne
    cases hnoted with
    | quiet hquiet =>
      rw [TaskSystem.moved_quiet hquiet]
      exact hI.keep ht hnonempty
    | began hpc hpc' hlog =>
      rw [TaskSystem.moved_began hlog] at polled ⊢
      intro p hp
      by_cases hpk : p = k
      · subst hpk
        exact absurd hp (polled ⟨i, by simpa using hpc'⟩)
      · simpa [hpk] using hI.keep ht hnonempty p hp
    | woken hpc hpc' hw hlog =>
      rw [TaskSystem.moved_woken hlog]
      exact hI.keep ht hnonempty
    | @returned r hpc hpc' hlog =>
      have hin : ((s.cell k).loc i).inJoin = true := by
        rw [hpc]
        rfl
      obtain ⟨w, hw, hpolls⟩ := hok.polls.recorded k i hin
      rw [TaskSystem.moved_returned hw hlog] at polled ⊢
      intro p hp
      have hold := hI.keep ht hnonempty p hp
      cases w with
      | blocked => exact hold
      | task q =>
        by_cases hpq : p = q
        · subst hpq
          refine absurd hp (polled ?_)
          refine TaskSystem.exists_call (hok.polls.inPoll p k hpolls) fun _ hpoll => ?_
          rw [hpc] at hpoll
          cases hpoll
        · cases r <;> simpa [TaskSystem.joinReturned, hpq] using hold
  | pollJoin hp hn hj hk hi hb =>
    exact hI.keep (.joinCall_of_idle hi hb) fun _ ha => by cases ha
  | @pollEvent p j e hn hj =>
    intro q hq
    by_cases hqp : q = p
    · subst hqp
      exact absurd hq (polled ⟨j, hj⟩)
    · simpa [TaskSystem.pollEvent, hqp] using hI q hq
  | wakeTask ho hk hi =>
    exact hI.keep (.wakeCall_of_idle hi) fun _ ha => by cases ha
  | blockPoll hblock hk hi hb =>
    exact hI.keep (.joinCall_of_idle hi hb) fun _ ha => by cases ha

/-! ## What has been found pending -/

/-- The task is awake, or is owed a wake. -/
def Alerting (s : TaskSystem κ ε ι F T P) (p : κ) : Prop :=
  0 < s.owed (.task p) ∨ Woken (s.cell p)

/-- What a task has found pending will alert it, if it has not yet. -/
structure WaitsFor (aw : Awaits κ) (s : TaskSystem κ ε ι F T P) : Prop where
  polled : ∀ p k, .task k ∈ s.pendingOn p →
    aw.parent k = some (.task p) ∧ lastReturn (s.cell k).shared.log = some (.pending (.task p))
  woken : ∀ p k, .task k ∈ s.pendingOn p → WokenSince (.task p) (s.cell k).shared.log → Alerting s p
  registered : ∀ p e, .event e ∈ s.pendingOn p → s.fired e = false → p ∈ s.registered e
  fired : ∀ p e, .event e ∈ s.pendingOn p → s.fired e = true → Alerting s p

omit [DecidableEq ε] in
/-- A task that is alerted stays so when a call has moved that begins no poll of it. -/
theorem Alerting.step {a : Label F T P (Awaiter κ)} {p : κ} (h : Alerting s p)
    (hcas : ((s.cell k).loc i).CasOk) (ht : CallTrans i (s.cell k).shared ((s.cell k).loc i) a σ pc)
    (hpoll : pc.polling = false) (hcell : s'.cell = (s.withCall k i σ pc).cell)
    (howed : s.owed (.task p) ≤ s'.owed (.task p)) : Alerting s' p := by
  rcases h with howes | hw
  · exact .inl (howes.trans_le howed)
  · right
    rw [hcell]
    by_cases hk : p = k
    · subst hk
      rw [TaskSystem.withCall_self]
      exact hw.step hcas rfl ht hpoll
    · rwa [TaskSystem.withCall_of_ne hk]

omit [DecidableEq ε] in
/-- A call that moves and finds nothing new pending keeps `WaitsFor` where it keeps alerted who is
alerted and still waits, and where it wakes no waker but of who is alerted then. -/
theorem WaitsFor.keep (h : WaitsFor aw s) (hcell : s'.cell = (s.withCall k i σ pc).cell)
    (halert : ∀ p, s'.pendingOn p ≠ [] → Alerting s p → Alerting s' p)
    (hpending : ∀ p, s'.pendingOn p ⊆ s.pendingOn p)
    (hlast : lastReturn σ.log = lastReturn (s.cell k).shared.log)
    (hwoken : ∀ p, WokenSince (.task p) σ.log →
      WokenSince (.task p) (s.cell k).shared.log ∨ Alerting s' p)
    (hreg : s'.registered = s.registered) (hfired : s'.fired = s.fired) : WaitsFor aw s' where
  polled p k' hk' := by
    rw [hcell]
    obtain ⟨hp, hold⟩ := h.polled p k' (hpending p hk')
    refine ⟨hp, ?_⟩
    by_cases hk : k' = k
    · subst hk
      rw [TaskSystem.withCall_self, hlast, hold]
    · rw [TaskSystem.withCall_of_ne hk, hold]
  woken p k' hk' hw := by
    have hold : WokenSince (.task p) (s.cell k').shared.log ∨ Alerting s' p := by
      rw [hcell] at hw
      by_cases hk : k' = k
      · subst hk
        rw [TaskSystem.withCall_self] at hw
        exact hwoken p hw
      · rw [TaskSystem.withCall_of_ne hk] at hw
        exact .inl hw
    rcases hold with hw | hp
    · exact halert p (List.ne_nil_of_mem hk') (h.woken p k' (hpending p hk') hw)
    · exact hp
  registered p e he hf := by
    rw [hfired] at hf
    rw [hreg]
    exact h.registered p e (hpending p he) hf
  fired p e he hf := by
    rw [hfired] at hf
    exact halert p (List.ne_nil_of_mem he) (h.fired p e (hpending p he) hf)

namespace TaskSystem

omit [DecidableEq ι] in
/-- What has been found pending after the poll of a handle has returned. -/
theorem mem_joinReturned {w : Awaiter κ} {r : JoinPoll T P (Awaiter κ)} {p : κ}
    {src : PendingSource κ ε}
    (h : src ∈ (s.joinReturned k w r).pendingOn p) :
    src ∈ s.pendingOn p ∧ (w = .task p → src ≠ .task k) ∨
      w = .task p ∧ src = .task k ∧ ∃ w', r = .pending w' := by
  cases w with
  | blocked => exact .inl ⟨h, nofun⟩
  | task q =>
    by_cases hpq : p = q
    · subst hpq
      by_cases hk : src = .task k
      · cases r with
        | ready o => simp [joinReturned, hk] at h
        | pending w' => exact .inr ⟨rfl, hk, w', rfl⟩
      · refine .inl ⟨?_, fun _ => hk⟩
        cases r <;> simpa [joinReturned, hk] using h
    · refine .inl ⟨?_, fun hq => ?_⟩
      · cases r <;> simpa [joinReturned, hpq] using h
      · cases hq
        exact absurd rfl hpq

end TaskSystem

/-- The poll of a handle returns: its awaiter waits for it if the poll was `Pending`, and does not
if it was `Ready`. -/
theorem WaitsFor.returned {w : Awaiter κ} {r : JoinPoll T P (Awaiter κ)} (h : WaitsFor aw s)
    (hw : aw.parent k = some w) (hr : ∀ w', r = .pending w' → w' = w)
    (hlog : σ.log = .joinReturned r :: (s.cell k).shared.log)
    (halert : ∀ p, Alerting s p → Alerting ((s.withCall k i σ pc).joinReturned k w r) p) :
    WaitsFor aw ((s.withCall k i σ pc).joinReturned k w r) where
  polled p k' hk' := by
    rcases TaskSystem.mem_joinReturned hk' with ⟨hold, hne⟩ | ⟨rfl, heq, w', rfl⟩
    · obtain ⟨hp, hlast⟩ := h.polled p k' hold
      have hk : k' ≠ k := by
        rintro rfl
        rw [hw] at hp
        exact hne (Option.some.inj hp) rfl
      refine ⟨hp, ?_⟩
      show lastReturn ((s.withCall k i σ pc).cell k').shared.log = _
      rw [TaskSystem.withCall_of_ne hk, hlast]
    · cases heq
      refine ⟨hw, ?_⟩
      show lastReturn ((s.withCall k i σ pc).cell k).shared.log = _
      rw [TaskSystem.withCall_self, hlog, lastReturn, hr w' rfl]
  woken p k' hk' hwoken := by
    change WokenSince _ ((s.withCall k i σ pc).cell k').shared.log at hwoken
    by_cases hk : k' = k
    · subst hk
      rw [TaskSystem.withCall_self, hlog] at hwoken
      exact hwoken.elim
    · rw [TaskSystem.withCall_of_ne hk] at hwoken
      rcases TaskSystem.mem_joinReturned hk' with ⟨hold, -⟩ | ⟨-, heq, -⟩
      · exact halert p (h.woken p k' hold hwoken)
      · cases heq
        exact absurd rfl hk
  registered p e he hf := by
    rcases TaskSystem.mem_joinReturned he with ⟨hold, -⟩ | ⟨-, heq, -⟩
    · exact h.registered p e hold hf
    · cases heq
  fired p e he hf := by
    rcases TaskSystem.mem_joinReturned he with ⟨hold, -⟩ | ⟨-, heq, -⟩
    · exact halert p (h.fired p e hold hf)
    · cases heq

omit [DecidableEq ι] in
/-- An event is polled: who polls it waits for it if it has not fired, and is registered then. -/
theorem WaitsFor.pollEvent {p : κ} {e : ε} (h : WaitsFor aw s) : WaitsFor aw (s.pollEvent p e) := by
  have old : ∀ q src, src ∈ (s.pollEvent p e).pendingOn q → src ∈ s.pendingOn q ∨
      q = p ∧ src = .event e ∧ s.fired e = false := by
    intro q src hsrc
    by_cases hq : q = p
    · subst hq
      cases hf : s.fired e with
      | true =>
        left
        simp only [TaskSystem.pollEvent, hf, if_true, Function.update_self] at hsrc
        exact List.mem_of_mem_filter hsrc
      | false =>
        simp only [TaskSystem.pollEvent, hf, Bool.false_eq_true, if_false, Function.update_self,
          List.mem_cons] at hsrc
        exact hsrc.symm.imp_right fun heq => ⟨rfl, heq, rfl⟩
    · left
      simpa [TaskSystem.pollEvent, hq] using hsrc
  have reg : ∀ q e', q ∈ s.registered e' → q ∈ (s.pollEvent p e).registered e' := by
    intro q e' hq
    unfold TaskSystem.pollEvent
    split
    · exact hq
    · by_cases he : e' = e
      · subst he
        simp [hq]
      · simpa [he] using hq
  refine ⟨fun q k hk => ?_, fun q k hk hw => ?_, fun q e' he hf => ?_, fun q e' he hf => ?_⟩
  · rcases old q _ hk with hk | ⟨-, hk, -⟩
    · exact h.polled q k hk
    · cases hk
  · rcases old q _ hk with hk | ⟨-, hk, -⟩
    · exact h.woken q k hk hw
    · cases hk
  · rcases old q _ he with he | ⟨rfl, he, hfired⟩
    · exact reg q e' (h.registered q e' he hf)
    · cases he
      simp [TaskSystem.pollEvent, hfired]
  · rcases old q _ he with he | ⟨-, he, hfired⟩
    · exact h.fired q e' he hf
    · cases he
      change s.fired e = true at hf
      rw [hfired] at hf
      cases hf

omit [DecidableEq ι] in
/-- An event fires: who waits for it is owed a wake. -/
theorem WaitsFor.fire {e : ε} (h : WaitsFor aw s) (he : s.fired e = false) :
    WaitsFor aw (s.fire e) := by
  have alert : ∀ p, Alerting s p → Alerting (s.fire e) p := fun p halert =>
    halert.imp_left fun ho => Nat.lt_add_right _ ho
  refine ⟨h.polled, fun p k hk hw => alert p (h.woken p k hk hw), fun p e' he' hf => ?_,
    fun p e' he' hf => ?_⟩
  · by_cases hne : e' = e
    · subst hne
      simp [TaskSystem.fire] at hf
    · simp only [TaskSystem.fire, Function.update_of_ne hne] at hf ⊢
      exact h.registered p e' he' hf
  · by_cases hne : e' = e
    · subst hne
      have hreg := h.registered p e' he' he
      exact .inl (Nat.add_pos_right _ (List.count_pos_iff.2 hreg))
    · simp only [TaskSystem.fire, Function.update_of_ne hne] at hf
      exact alert p (h.fired p e' he' hf)

/-- `WaitsFor` in every state reached. -/
theorem reachable_waitsFor (h : (systemMachine aw fut).Reachable G s) : WaitsFor aw s := by
  refine system_invariant (J := SystemOk aw fut) h (fun _ h => reachable_systemOk h)
    ⟨nofun, nofun, nofun, nofun⟩ ?_
  intro s s' hok hok' hI hst
  cases hst with
  | spawn | wakeBlocked | unpark => exact ⟨hI.polled, hI.woken, hI.registered, hI.fired⟩
  | pollEvent => exact hI.pollEvent
  | fire he => exact hI.fire he
  | @call k i a σ pc hk ha hend hst =>
    have ht := callStep_trans hst
    have hcas := reachable_casOk (hok.cells k) i
    have hne : a ≠ .unwind := by
      rintro rfl
      cases ha
    have hnoted := ht.noted hne
    cases hnoted with
    | quiet hquiet hlast hwoken _ _ hpoll =>
      rw [TaskSystem.moved_quiet hquiet]
      exact hI.keep rfl (fun p _ hp => hp.step hcas ht hpoll rfl le_rfl)
        (fun _ => List.Subset.refl _) hlast (fun p hw => .inl ((hwoken _).1 hw)) rfl rfl
    | began hpc hpc' hlog =>
      rw [TaskSystem.moved_began hlog]
      refine hI.keep rfl (fun p hp halert => ?_) (fun p => ?_) (by rw [hlog]; rfl) ?_ rfl rfl
      · have hpk : p ≠ k := by
          rintro rfl
          simp at hp
        refine halert.imp_right fun hw => ?_
        show Woken ((s.withCall k i σ pc).cell p)
        rwa [TaskSystem.withCall_of_ne hpk]
      · by_cases hpk : p = k
        · subst hpk
          simp
        · simp [hpk]
      · rw [hlog]
        exact fun p hw => .inl hw
    | @woken w hpc hpc' hw hlog =>
      rw [TaskSystem.moved_woken hlog]
      have howed : ∀ p, s.owed p ≤ Function.update s.owed w (s.owed w + 1) p := by
        intro p
        by_cases hp : p = w
        · subst hp
          simp
        · simp [hp]
      refine hI.keep rfl (fun p _ hp => hp.step hcas ht (by rw [hpc']; rfl) rfl (howed _))
        (fun _ => List.Subset.refl _) (by rw [hlog]; rfl) ?_ rfl rfl
      rw [hlog]
      rintro p (rfl | hwoken)
      · exact .inr (.inl (by simp))
      · exact .inl hwoken
    | @returned r hpc hpc' hlog =>
      have hin : ((s.cell k).loc i).inJoin = true := by
        rw [hpc]
        rfl
      obtain ⟨w, hw, -⟩ := hok.polls.recorded k i hin
      rw [TaskSystem.moved_returned hw hlog]
      refine hI.returned hw ?_ hlog fun p hp => hp.step hcas ht (by rw [hpc']; rfl) rfl le_rfl
      rintro w' rfl
      have hcall := (reachable_awaiterOnly (hok.cells k)).call i w' (by rw [hpc]; rfl)
      rw [hw] at hcall
      exact (Option.some.inj hcall).symm
  | @pollJoin p k j i hp hn hj hk hi hb =>
    exact hI.keep rfl (fun p _ hp => hp.step (reachable_casOk (hok.cells k) i)
      (.joinCall_of_idle hi hb) rfl rfl le_rfl) (fun _ => List.Subset.refl _) rfl
      (fun _ => .inl) rfl rfl
  | @wakeTask k i ho hk hi =>
    have hcell : ((s.paid (.task k)).withCall k i (s.cell k).shared (.wake .load)).cell =
      (s.withCall k i (s.cell k).shared (.wake .load)).cell := rfl
    refine hI.keep hcell (fun p _ hp => ?_)
      (fun _ => List.Subset.refl _) rfl (fun _ => .inl) rfl rfl
    by_cases hpk : p = k
    · subst hpk
      refine .inr (.inr (.inr ⟨i, ?_⟩))
      simp [TaskSystem.withCall, TaskSystem.paid, Pc.wakes]
    · refine hp.imp (fun ho => ?_) fun hw => ?_
      · simpa [TaskSystem.paid, hpk] using ho
      · rwa [TaskSystem.withCall_of_ne hpk]
  | @blockPoll i hblock hk hi hb =>
    exact hI.keep rfl (fun p _ hp => hp.step (reachable_casOk (hok.cells _) i)
      (.joinCall_of_idle hi hb) rfl rfl le_rfl) (fun _ => List.Subset.refl _) rfl
      (fun _ => .inl) rfl rfl

/-! ## The thread in `block_on` -/

/-- The thread in `block_on` is parked only when its last poll was `Pending`, and has a token then
or is owed one as soon as the waker has been woken. What it returns is the first `Ready`. -/
structure BlockWaits (aw : Awaits κ) (s : TaskSystem κ ε ι F T P) : Prop where
  parked : s.block = .park →
    lastReturn (s.cell aw.root).shared.log = some (.pending .blocked) ∧
      (WokenSince .blocked (s.cell aw.root).shared.log → 0 < s.owed .blocked ∨ s.token = true)
  returned : ∀ o, s.block = .done o → firstReady (s.cell aw.root).shared.log = some o
  waiting : (∀ o, s.block ≠ .done o) → firstReady (s.cell aw.root).shared.log = none

omit [DecidableEq ε] in
/-- A call that moves and returns nothing to `block_on` keeps `BlockWaits`. -/
theorem BlockWaits.keep (h : BlockWaits aw s) (hcell : s'.cell = (s.withCall k i σ pc).cell)
    (hlast : k = aw.root → lastReturn σ.log = lastReturn (s.cell k).shared.log)
    (hfirst : k = aw.root → firstReady σ.log = firstReady (s.cell k).shared.log)
    (hwoken : k = aw.root → WokenSince .blocked σ.log →
      WokenSince .blocked (s.cell k).shared.log ∨ 0 < s'.owed .blocked)
    (howed : s.owed .blocked ≤ s'.owed .blocked) (hblock : s'.block = s.block)
    (htoken : s'.token = s.token) : BlockWaits aw s' := by
  by_cases hk : aw.root = k
  · have hroot : (s'.cell aw.root).shared = σ := by rw [hcell, hk, TaskSystem.withCall_self]
    refine ⟨fun hb => ?_, fun o hb => ?_, fun hb => ?_⟩
    · obtain ⟨hpend, hold⟩ := h.parked (hblock ▸ hb)
      rw [hroot, htoken]
      refine ⟨by rw [hlast hk.symm, ← hk, hpend], fun hw => ?_⟩
      rcases hwoken hk.symm hw with hw | ho
      · exact (hold (hk ▸ hw)).imp_left fun ho => ho.trans_le howed
      · exact .inl ho
    · rw [hroot, hfirst hk.symm, ← hk]
      exact h.returned o (hblock ▸ hb)
    · rw [hroot, hfirst hk.symm, ← hk]
      exact h.waiting (hblock ▸ hb)
  · have hroot : s'.cell aw.root = s.cell aw.root := by rw [hcell, TaskSystem.withCall_of_ne hk]
    refine ⟨fun hb => ?_, fun o hb => ?_, fun hb => ?_⟩
    · obtain ⟨hpend, hold⟩ := h.parked (hblock ▸ hb)
      rw [hroot, htoken]
      exact ⟨hpend, fun hw => (hold hw).imp_left fun ho => ho.trans_le howed⟩
    · rw [hroot]
      exact h.returned o (hblock ▸ hb)
    · rw [hroot]
      exact h.waiting (hblock ▸ hb)

/-- The poll of the root returns to `block_on`. -/
theorem BlockWaits.returns {r : JoinPoll T P (Awaiter κ)} (h : BlockWaits aw s)
    (hblock : s.block = .polling) (hr : ∀ w, r = .pending w → w = .blocked)
    (hlog : σ.log = .joinReturned r :: (s.cell aw.root).shared.log) :
    BlockWaits aw ((s.withCall aw.root i σ pc).joinReturned aw.root .blocked r) := by
  have hroot : (((s.withCall aw.root i σ pc).joinReturned aw.root .blocked r).cell aw.root).shared =
      σ := by
    show ((s.withCall aw.root i σ pc).cell aw.root).shared = σ
    rw [TaskSystem.withCall_self]
  have hnone : firstReady (s.cell aw.root).shared.log = none :=
    h.waiting (by rw [hblock]; exact fun o => by simp)
  cases r with
  | ready o =>
    refine ⟨fun hb => (by cases hb), fun o' ho => ?_, fun hb => absurd rfl (hb o)⟩
    rw [hroot, hlog]
    cases ho
    simp [firstReady, hnone]
  | pending w =>
    refine ⟨fun _ => ?_, fun _ hb => (by cases hb), fun _ => ?_⟩
    · rw [hroot, hlog, hr w rfl]
      exact ⟨rfl, False.elim⟩
    · rw [hroot, hlog]
      simp [firstReady, hnone]

/-- `BlockWaits` in every state reached. -/
theorem reachable_blockWaits (h : (systemMachine aw fut).Reachable G s) : BlockWaits aw s := by
  refine system_invariant (J := SystemOk aw fut) h (fun _ h => reachable_systemOk h)
    ⟨fun hb => (by cases hb), fun _ hb => (by cases hb), fun _ => rfl⟩ ?_
  intro s s' hok hok' hI hst
  cases hst with
  | spawn | pollEvent | fire => exact ⟨hI.parked, hI.returned, hI.waiting⟩
  | wakeBlocked ho =>
    exact ⟨fun hb => ⟨(hI.parked hb).1, fun _ => .inr rfl⟩, hI.returned, hI.waiting⟩
  | unpark hblock ht =>
    refine ⟨fun hb => (by cases hb), fun _ hb => (by cases hb), fun _ => hI.waiting ?_⟩
    rw [hblock]
    exact fun o => by simp
  | @call k i a σ pc hk ha hend hst =>
    have ht := callStep_trans hst
    have hne : a ≠ .unwind := by
      rintro rfl
      cases ha
    have hnoted := ht.noted hne
    cases hnoted with
    | quiet hquiet hlast hwoken hfirst _ _ =>
      rw [TaskSystem.moved_quiet hquiet]
      exact hI.keep rfl (fun _ => hlast) (fun _ => hfirst) (fun _ hw => .inl ((hwoken _).1 hw))
        le_rfl rfl rfl
    | began hpc hpc' hlog =>
      rw [TaskSystem.moved_began hlog]
      refine hI.keep (σ := σ) rfl ?_ ?_ ?_ le_rfl rfl rfl <;> rw [hlog]
      · exact fun _ => rfl
      · simp [firstReady]
      · exact fun _ hw => .inl hw
    | @woken w hpc hpc' hw hlog =>
      rw [TaskSystem.moved_woken hlog]
      refine hI.keep (σ := σ) rfl ?_ ?_ ?_ ?_ rfl rfl
      · rw [hlog]
        exact fun _ => rfl
      · simp [hlog, firstReady]
      · rw [hlog]
        rintro - (rfl | hwoken)
        · exact .inr (by simp)
        · exact .inl hwoken
      · by_cases hw : Awaiter.blocked = w
        · simp [← hw]
        · simp [hw]
    | @returned r hpc hpc' hlog =>
      have hin : ((s.cell k).loc i).inJoin = true := by
        rw [hpc]
        rfl
      obtain ⟨w, hw, hpolls⟩ := hok.polls.recorded k i hin
      rw [TaskSystem.moved_returned hw hlog]
      cases w with
      | task p =>
        have hne : k ≠ aw.root := by
          rintro rfl
          rw [aw.parent_root] at hw
          cases hw
        exact hI.keep (σ := σ) rfl (fun h => absurd h hne) (fun h => absurd h hne)
          (fun h => absurd h hne) le_rfl rfl rfl
      | blocked =>
        have hk := aw.eq_root hw
        subst hk
        refine hI.returns (hok.polls.inBlock.1 (by rw [hpolls]; simp)) ?_ hlog
        rintro w' rfl
        have hcall := (reachable_awaiterOnly (hok.cells _)).call i w' (by rw [hpc]; rfl)
        rw [hw] at hcall
        exact (Option.some.inj hcall).symm
  | pollJoin hp hn hj hk hi hb =>
    exact hI.keep rfl (fun _ => rfl) (fun _ => rfl) (fun _ => .inl) le_rfl rfl rfl
  | @wakeTask k i ho hk hi =>
    have hcell : ((s.paid (.task k)).withCall k i (s.cell k).shared (.wake .load)).cell =
      (s.withCall k i (s.cell k).shared (.wake .load)).cell := rfl
    exact hI.keep hcell (fun _ => rfl) (fun _ => rfl)
      (fun _ => .inl) (by simp [TaskSystem.paid]) rfl rfl
  | @blockPoll i hblock hk hi hb =>
    have hroot : ∀ {pc : Pc F T P (Awaiter κ)}, ((s.withCall aw.root i
        { (s.cell aw.root).shared with joinBorrowed := true } pc).cell aw.root).shared.log =
          (s.cell aw.root).shared.log := by
      intro pc
      rw [TaskSystem.withCall_self]
    refine ⟨fun hb => (by cases hb), fun _ hb => (by cases hb), fun _ => ?_⟩
    show firstReady ((s.withCall aw.root i _ _).cell aw.root).shared.log = none
    rw [hroot]
    exact hI.waiting (by rw [hblock]; exact fun o => by simp)

end Hypertile
