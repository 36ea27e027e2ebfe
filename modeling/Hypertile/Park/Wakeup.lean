import Hypertile.Park.Core

/-!
# No missed wake-up

A worker that marked itself idle and has not begun to unmark itself is on the idle stack, or has an
unpark token, or a producer that popped it is about to unpark it (`reachable_noticed`); and the
counter is the length of the stack, up to the threads that changed the stack and have not counted
yet (`reachable_idleCount`). So a producer that finds the counter at zero, or the stack empty,
leaves no worker parked unnoticed, and the worker that parks last has found the injector empty
(`no_missed_wakeup`).
-/

namespace Hypertile

open Machine Machine.Threads

variable {ω H π : Type} [DecidableEq ω]

/-! ## The steps -/

/-- A step on the queues leaves the idle bookkeeping as it is. -/
structure SameIdle (s s' : Parking ω H) : Prop where
  workers : s'.workers = s.workers
  idleStack : s'.idleStack = s.idleStack
  idleCount : s'.idleCount = s.idleCount
  token : s'.token = s.token

namespace SameIdle

omit [DecidableEq ω] in
/-- Nothing is moved. -/
theorem refl (s : Parking ω H) : SameIdle s s := ⟨rfl, rfl, rfl, rfl⟩

/-- A steal from the injector that gives nothing finds it empty. -/
theorem stealInjector {s s' : Parking ω H} {w : ω} {ch : Choice} {r : Steal H}
    (h : s.stealInjector w ch = some (s', r)) :
    SameIdle s s' ∧ ((∀ task, r ≠ .success task) → s.injector = [] ∧ s' = s) := by
  cases ch with
  | retry => cases h
  | batch n =>
    simp only [Parking.stealInjector, Option.some.injEq] at h
    split at h
    · next hnil =>
      cases h
      exact ⟨refl s, fun _ => ⟨hnil, rfl⟩⟩
    · cases h
      exact ⟨⟨rfl, rfl, rfl, rfl⟩, fun hr => absurd rfl (hr _)⟩

/-- A pop of the local deque. -/
theorem localPop {s s' : Parking ω H} {w : ω} {r : Steal H} (h : s.localPop w = (s', r)) :
    SameIdle s s' := by
  unfold Parking.localPop at h
  split at h
  · cases h
    exact refl s
  · cases h
    exact ⟨rfl, rfl, rfl, rfl⟩

/-- A steal from a peer. -/
theorem stealPeer {s s' : Parking ω H} {w peer : ω} {ch : Choice} {r : Steal H}
    (h : s.stealPeer w peer ch = (s', r)) : SameIdle s s' := by
  cases ch with
  | retry => cases h; exact refl s
  | batch n =>
    simp only [Parking.stealPeer] at h
    split at h
    · cases h
      exact refl s
    · cases h
      exact ⟨rfl, rfl, rfl, rfl⟩

/-- An attempt of `find_task`. -/
theorem attempt {s s' : Parking ω H} {w : ω} {ch : Choice} {pc : FindPc ω} {r : Steal H}
    (h : s.attempt w ch pc = some (s', r)) : SameIdle s s' := by
  cases pc with
  | injectorFirst | injector | injectorAgain => exact (stealInjector h).1
  | localDeque => exact localPop (Option.some.inj h)
  | stealers => cases h
  | peerAgain peer rest => exact stealPeer (Option.some.inj h)
  | peers rest =>
    cases rest with
    | nil => cases h
    | cons peer rest =>
      simp only [Parking.attempt] at h
      split at h
      · cases h
      · exact stealPeer (Option.some.inj h)

end SameIdle

/-- The worker looks for tasks, runs one, or is about to mark itself idle. -/
def LoopPc.working : LoopPc ω H → Bool
  | .top | .find _ | .run _ _ | .drain _ | .spin _ | .spinInjector _ | .mark => true
  | _ => false

/-- `ParkTrans s i t s' t'`: thread `i` at `t` can take a step from the shared state `s`, to `s'`
and `t'`. -/
inductive ParkTrans (s : Parking ω H) :
    ω ⊕ π → ParkThread ω H → Parking ω H → ParkThread ω H → Prop
  | register {w : ω} {n : ℕ} : ParkTrans s (.inl w) (.worker n .register)
      { s with workers := w :: s.workers } (.worker n .top)
  | work {w : ω} {n n' : ℕ} {pc pc' : LoopPc ω H} {s' : Parking ω H} (hsame : SameIdle s s')
      (hpc : pc.working = true) (hpc' : pc'.working = true) :
      ParkTrans s (.inl w) (.worker n pc) s' (.worker n' pc')
  | mark {w : ω} {n : ℕ} : ParkTrans s (.inl w) (.worker n .mark)
      { s with idleStack := w :: s.idleStack, locked := true } (.worker n .markCount)
  | markAgain {w : ω} {n : ℕ} (hw : w ∈ s.idleStack) :
      ParkTrans s (.inl w) (.worker n .mark) s (.worker n .recheck)
  | markCount {w : ω} {n : ℕ} : ParkTrans s (.inl w) (.worker n .markCount)
      { s with idleCount := s.idleCount + 1, locked := false } (.worker n .recheck)
  | recheckGot {w : ω} {n : ℕ} {s' : Parking ω H} {task : H} (hsame : SameIdle s s') :
      ParkTrans s (.inl w) (.worker n .recheck) s' (.worker n (.unmark (some task)))
  | recheckNone {w : ω} {n : ℕ} (hinj : s.injector = []) :
      ParkTrans s (.inl w) (.worker n .recheck) s (.worker n .park)
  | park {w : ω} {n : ℕ} : ParkTrans s (.inl w) (.worker n .park)
      { s with token := Function.update s.token w false } (.worker n (.unmark none))
  | unmark {w : ω} {n removed : ℕ} {task : Option H}
      (hremoved : (s.idleStack.filter (· ≠ w)).length + removed = s.idleStack.length) :
      ParkTrans s (.inl w) (.worker n (.unmark task))
        { s with idleStack := s.idleStack.filter (· ≠ w), locked := true }
        (.worker n (.unmarkCount removed task))
  | unmarkNone {w : ω} {n : ℕ} {task : Option H} {pc : LoopPc ω H} (hpc : pc.working = true) :
      ParkTrans s (.inl w) (.worker n (.unmark task)) s (.worker n pc)
  | unmarkCount {w : ω} {n removed : ℕ} {task : Option H} {pc : LoopPc ω H}
      (hpc : pc.working = true) :
      ParkTrans s (.inl w) (.worker n (.unmarkCount removed task))
        { s with idleCount := s.idleCount - removed, locked := false } (.worker n pc)
  | inject {i : π} {task : H} :
      ParkTrans s (.inr i) (.producer .idle) s (.producer (.push task))
  | unparkOneIdle {i : π} : ParkTrans s (.inr i) (.producer .idle) s (.producer .load)
  | push {i : π} {task : H} : ParkTrans s (.inr i) (.producer (.push task))
      { s with injector := s.injector ++ [task] } (.producer .load)
  | loadNone {i : π} (hcount : s.idleCount = 0) :
      ParkTrans s (.inr i) (.producer .load) s (.producer .idle)
  | load {i : π} : ParkTrans s (.inr i) (.producer .load) s (.producer .pop)
  | popNone {i : π} (hstack : s.idleStack = []) :
      ParkTrans s (.inr i) (.producer .pop) s (.producer .idle)
  | pop {i : π} {w : ω} {rest : List ω} (hstack : s.idleStack = w :: rest) :
      ParkTrans s (.inr i) (.producer .pop) { s with idleStack := rest, locked := true }
        (.producer (.popCount w))
  | popCount {i : π} {w : ω} : ParkTrans s (.inr i) (.producer (.popCount w))
      { s with idleCount := s.idleCount - 1, locked := false } (.producer (.lookup w))
  | lookup {i : π} {w : ω} (hw : w ∈ s.workers) :
      ParkTrans s (.inr i) (.producer (.lookup w)) s (.producer (.unpark w))
  | lookupNone {i : π} {w : ω} (hw : w ∉ s.workers) :
      ParkTrans s (.inr i) (.producer (.lookup w)) s (.producer .pop)
  | unpark {i : π} {w : ω} : ParkTrans s (.inr i) (.producer (.unpark w))
      { s with token := Function.update s.token w true } (.producer .idle)

omit [DecidableEq ω] in
/-- After `unmark_idle` a worker looks for tasks or runs one. -/
theorem working_afterUnmark (task : Option H) : (afterUnmark (ω := ω) task).working = true := by
  cases task <;> rfl

/-- Every step of a producer is one of the steps. -/
theorem producerStep_trans {s s' : Parking ω H} {i : π} {pc pc' : ProducerPc ω H} {a : ParkLabel H}
    (h : producerStep s pc a = some (s', pc')) :
    ParkTrans s (.inr i) (.producer pc) s' (.producer pc') := by
  unfold producerStep at h
  split at h
  · cases h; exact .inject
  · cases h; exact .unparkOneIdle
  · cases h; exact .push
  · cases h
    split
    · next hcount => exact .loadNone hcount
    · exact .load
  · split at h
    · cases h
    · split at h
      · next hstack => cases h; exact .popNone hstack
      · next hstack => cases h; exact .pop hstack
  · cases h; exact .popCount
  · cases h
    split
    · next hw => exact .lookup hw
    · next hw => exact .lookupNone hw
  · cases h; exact .unpark
  · cases h

/-- Every step of `run_loop` from a place other than its head is one of the steps. -/
theorem loopStep_trans {s s' : Parking ω H} {w : ω} {n : ℕ} {pc pc' : LoopPc ω H}
    {a : ParkLabel H} (h : loopStep s w pc a = some (s', pc')) :
    ParkTrans (π := π) s (.inl w) (.worker n pc) s' (.worker n pc') := by
  unfold loopStep at h
  split at h
  · cases h; exact .register
  · -- an attempt of `find_task`
    next pc₀ ch =>
    obtain ⟨⟨q, r⟩, hr, he⟩ := Option.map_eq_some_iff.1 h
    have hsame := SameIdle.attempt hr
    cases r <;> cases he <;> exact .work hsame rfl rfl
  · cases h
    refine .work (.refl s) rfl ?_
    split <;> rfl
  · cases h; exact .work (.refl s) rfl rfl
  · split at h
    · cases h; exact .work (.refl s) rfl rfl
    · cases h
  · cases h; exact .work ⟨rfl, rfl, rfl, rfl⟩ rfl rfl
  · next next =>
    cases h
    refine .work (.refl s) rfl ?_
    cases next <;> rfl
  · -- the drain of the local deque
    next n₀ =>
    split at h
    · cases hr : s.localPop w with
      | mk q r =>
        have hsame := SameIdle.localPop hr
        rw [hr] at h
        cases r <;> cases h <;> exact .work hsame rfl rfl
    · cases h; exact .work (.refl s) rfl rfl
  · next n₀ =>
    split at h
    · cases hr : s.localPop w with
      | mk q r =>
        have hsame := SameIdle.localPop hr
        rw [hr] at h
        cases r <;> cases h <;> exact .work hsame rfl rfl
    · cases h; exact .work (.refl s) rfl rfl
  · obtain ⟨⟨q, r⟩, hr, he⟩ := Option.map_eq_some_iff.1 h
    have hsame := (SameIdle.stealInjector hr).1
    cases r <;> cases he <;> exact .work hsame rfl rfl
  · split at h
    · cases h
    · simp only [Parking.markIdle] at h
      split at h
      · next hw => cases h; exact .markAgain hw
      · cases h; exact .mark
  · cases h; exact .markCount
  · -- the second look at the injector
    obtain ⟨⟨q, r⟩, hr, he⟩ := Option.map_eq_some_iff.1 h
    obtain ⟨hsame, hnone⟩ := SameIdle.stealInjector hr
    cases r with
    | success task => cases he; exact .recheckGot hsame
    | empty | retry =>
      obtain ⟨hinj, rfl⟩ := hnone nofun
      cases he
      exact .recheckNone hinj
  · split at h
    · cases h; exact .park
    · cases h
  · next task =>
    split at h
    · cases h
    · simp only [Parking.unmarkIdle] at h
      have hle := List.length_filter_le (· ≠ w) s.idleStack
      split at h
      · cases h
        exact .unmark (Nat.add_sub_cancel' hle)
      · cases h
        exact .unmarkNone (working_afterUnmark task)
  · next task =>
    cases h
    exact .unmarkCount (working_afterUnmark task)
  · cases h

/-- Every step of a thread is one of the steps. -/
theorem parkStep_trans {s s' : Parking ω H} {i : ω ⊕ π} {t t' : ParkThread ω H} {a : ParkLabel H}
    (h : parkStep i s t a = some (s', t')) : ParkTrans s i t s' t' := by
  unfold parkStep at h
  split at h
  · cases h
    exact .work (.refl s) rfl rfl
  · obtain ⟨⟨q, pc'⟩, hr, he⟩ := Option.map_eq_some_iff.1 h
    cases he
    exact loopStep_trans hr
  · obtain ⟨⟨q, pc'⟩, hr, he⟩ := Option.map_eq_some_iff.1 h
    cases he
    exact producerStep_trans hr
  · cases h

variable [DecidableEq π] {c : ParkConfig ω H π}
  {G : ParkConfig ω H π → (ω ⊕ π) × ParkLabel H → Prop}

/-- The owner and interference rule of `parkMachine`. -/
theorem park_local {L : ω ⊕ π → Parking ω H → ParkThread ω H → Prop}
    (h : (parkMachine ω H π).Reachable G c)
    (h₀ : ∀ j, L j .new (Sum.elim (fun _ => .worker 0 .register) (fun _ => .producer .idle) j))
    (own : ∀ i s t s' t', L i s t → ParkTrans s i t s' t' → L i s' t')
    (other : ∀ i s t s' t' j u, j ≠ i → ParkTrans s i t s' t' → L j s u → L j s' u)
    (j : ω ⊕ π) : L j c.shared (c.loc j) := by
  refine invariant_local (J := fun _ => True) (L := L) h (fun _ _ => trivial) h₀ ?_ ?_ j
  · intro c i a s' t t' _ _ _ hL hst
    exact own i c.shared t s' t' hL (parkStep_trans hst)
  · intro c i a s' t t' j _ _ _ hj hst hL
    exact other i c.shared t s' t' j (c.loc j) hj (parkStep_trans hst) hL

/-! ## What the threads are -/

/-- The thread is a worker. -/
def ParkThread.isWorker : ParkThread ω H → Bool
  | .worker _ _ => true
  | .producer _ => false

/-- Workers stay workers, and producers stay producers. -/
theorem reachable_isWorker (h : (parkMachine ω H π).Reachable G c) (j : ω ⊕ π) :
    (c.loc j).isWorker = j.isLeft := by
  refine park_local (L := fun j _ t => t.isWorker = j.isLeft) h ?_ ?_ ?_ j
  · intro j
    cases j <;> rfl
  · intro i s t s' t' _ ht
    cases ht <;> rfl
  · intro i s t s' t' j u _ _ hL
    exact hL

/-- A thread that is not about to register as a worker. -/
def ParkThread.registered : ParkThread ω H → Bool
  | .worker _ .register => false
  | _ => true

omit [DecidableEq π] in
/-- No worker is deregistered. -/
theorem ParkTrans.workers {s s' : Parking ω H} {i : ω ⊕ π} {t t' : ParkThread ω H}
    (h : ParkTrans s i t s' t') {w : ω} (hw : w ∈ s.workers) : w ∈ s'.workers := by
  cases h with
  | register => exact List.mem_cons_of_mem _ hw
  | work hsame | recheckGot hsame =>
    rw [hsame.workers]
    exact hw
  | _ => exact hw

/-- A worker that is past its registration is registered. -/
theorem reachable_registered (h : (parkMachine ω H π).Reachable G c) {w : ω}
    (hw : (c.loc (.inl w)).registered = true) : w ∈ c.shared.workers := by
  refine park_local (L := fun j s t => ∀ w, j = .inl w → t.registered = true → w ∈ s.workers) h
    ?_ ?_ ?_ (.inl w) w rfl hw
  · rintro j w rfl hreg
    cases hreg
  · rintro i s t s' t' hL ht w rfl hreg
    have hkeep : t.registered = true → w ∈ s'.workers := fun ht' => ht.workers (hL w rfl ht')
    cases ht with
    | register => exact List.mem_cons_self
    | @work _ _ _ pc _ _ _ hpc =>
      refine hkeep ?_
      cases pc with
      | register => cases hpc
      | _ => rfl
    | _ => exact hkeep rfl
  · rintro i s t s' t' j u _ ht hL w rfl hreg
    exact ht.workers (hL w rfl hreg)

/-! ## The counter -/

/-- What a thread, which changed the stack, has still to count. -/
def ParkThread.pending : ParkThread ω H → ℤ
  | .worker _ .markCount => 1
  | .worker _ (.unmarkCount removed _) => -removed
  | .producer (.popCount _) => -1
  | _ => 0

omit [DecidableEq ω] in
/-- Nothing is pending while a worker looks for tasks or runs one. -/
theorem pending_of_working {n : ℕ} {pc : LoopPc ω H} (h : pc.working = true) :
    (ParkThread.worker n pc).pending = 0 := by
  cases pc with
  | markCount | unmarkCount => cases h
  | _ => rfl

/-- How far the counter is ahead of the stack. -/
def Parking.ahead (s : Parking ω H) : ℤ := s.idleCount - s.idleStack.length

omit [DecidableEq π] in
/-- A step changes the stack or the counter with what is pending. -/
theorem ParkTrans.ahead {s s' : Parking ω H} {i : ω ⊕ π} {t t' : ParkThread ω H}
    (h : ParkTrans s i t s' t') : s'.ahead + t'.pending = s.ahead + t.pending := by
  cases h with
  | work hsame hpc hpc' =>
    rw [pending_of_working hpc, pending_of_working hpc']
    simp only [Parking.ahead, hsame.idleCount, hsame.idleStack]
  | recheckGot hsame =>
    simp only [Parking.ahead, hsame.idleCount, hsame.idleStack, ParkThread.pending]
  | unmark hremoved =>
    simp only [Parking.ahead, ParkThread.pending]
    omega
  | unmarkNone hpc => rw [pending_of_working hpc]; rfl
  | unmarkCount hpc =>
    rw [pending_of_working hpc]
    simp only [Parking.ahead, ParkThread.pending]
    omega
  | pop hstack =>
    simp only [Parking.ahead, ParkThread.pending, hstack, List.length_cons]
    omega
  | _ =>
    simp only [Parking.ahead, ParkThread.pending, List.length_cons]
    try omega

section
variable [Fintype ω] [Fintype π]

/-- The counter is the length of the stack, up to what is pending. -/
theorem reachable_idleCount (h : (parkMachine ω H π).Reachable G c) :
    total Parking.ahead ParkThread.pending c = 0 := by
  refine Threads.invariant (J := fun _ => True)
    (I := fun c => total Parking.ahead ParkThread.pending c = 0) h (fun _ _ => trivial) ?_ ?_
  · refine (zero_add _).trans (Finset.sum_eq_zero fun j _ => ?_)
    cases j <;> rfl
  · rintro c i a s' _ t' _ hI _ rfl hst
    rw [total_step (parkStep_trans hst).ahead, hI]

end

/-! ## Marked workers are noticed -/

/-- A worker that marked itself idle and has not begun to unmark itself. -/
def ParkThread.marked : ParkThread ω H → Bool
  | .worker _ .markCount | .worker _ .recheck | .worker _ .park => true
  | _ => false

/-- A producer that popped the worker and is about to unpark it. -/
def ParkThread.wakes (w : ω) : ParkThread ω H → Bool
  | .producer (.popCount v) | .producer (.lookup v) | .producer (.unpark v) => decide (v = w)
  | _ => false

/-- The worker is on the idle stack, has an unpark token, or is about to get one. -/
def Noticed (c : ParkConfig ω H π) (w : ω) : Prop :=
  w ∈ c.shared.idleStack ∨ c.shared.token w = true ∨ ∃ i, (c.loc i).wakes w = true

omit [DecidableEq π] in
/-- A step that does not unmark the registered worker keeps it on the stack, keeps its token, or is
one of a producer that pops it or gives it a token. -/
theorem ParkTrans.noticed {s s' : Parking ω H} {i : ω ⊕ π} {t t' : ParkThread ω H}
    (h : ParkTrans s i t s' t') {w : ω} (hi : i = .inl w → t'.marked = true)
    (hw : w ∈ s.workers) :
    (w ∈ s.idleStack → w ∈ s'.idleStack ∨ t'.wakes w = true) ∧
      (s.token w = true → s'.token w = true) ∧
      (t.wakes w = true → s'.token w = true ∨ t'.wakes w = true) := by
  cases h with
  | work hsame => exact ⟨fun hs => .inl (hsame.idleStack ▸ hs), fun ht => hsame.token ▸ ht, nofun⟩
  | recheckGot hsame =>
    exact ⟨fun hs => .inl (hsame.idleStack ▸ hs), fun ht => hsame.token ▸ ht, nofun⟩
  | mark => exact ⟨fun hs => .inl (List.mem_cons_of_mem _ hs), fun ht => ht, nofun⟩
  | @park v =>
    have hne : w ≠ v := fun heq => Bool.false_ne_true (hi (by rw [heq]))
    exact ⟨.inl, fun ht => (Function.update_of_ne hne ..).trans ht, nofun⟩
  | @unmark v =>
    have hne : w ≠ v := fun heq => Bool.false_ne_true (hi (by rw [heq]))
    refine ⟨fun hs => .inl (List.mem_filter.2 ⟨hs, by simpa using hne⟩), fun ht => ht, nofun⟩
  | @pop _ v rest hstack =>
    refine ⟨fun hs => ?_, fun ht => ht, nofun⟩
    rw [hstack] at hs
    rcases List.mem_cons.1 hs with rfl | hs
    · exact .inr (decide_eq_true rfl)
    · exact .inl hs
  | popCount => exact ⟨.inl, fun ht => ht, .inr⟩
  | lookup => exact ⟨.inl, fun ht => ht, .inr⟩
  | @lookupNone _ v hv =>
    refine ⟨.inl, fun ht => ht, fun hwakes => ?_⟩
    have hvw : v = w := of_decide_eq_true hwakes
    exact absurd (hvw ▸ hw) hv
  | @unpark _ v =>
    refine ⟨.inl, fun ht => ?_, fun hwakes => ?_⟩
    · by_cases heq : w = v
      · subst heq
        exact Function.update_self ..
      · exact (Function.update_of_ne heq ..).trans ht
    · have hvw : v = w := of_decide_eq_true hwakes
      subst hvw
      exact .inl (Function.update_self ..)
  | _ => exact ⟨.inl, fun ht => ht, nofun⟩

/-- A registered worker stays noticed until it begins to unmark itself. -/
theorem Noticed.step {w : ω} {i : ω ⊕ π} {s' : Parking ω H} {t' : ParkThread ω H}
    (hn : Noticed c w) (h : ParkTrans c.shared i (c.loc i) s' t')
    (hi : i = .inl w → t'.marked = true) (hw : w ∈ c.shared.workers) :
    Noticed ⟨s', Function.update c.loc i t'⟩ w := by
  obtain ⟨hstack, htoken, hwakes⟩ := h.noticed hi hw
  have woken : t'.wakes w = true → Noticed ⟨s', Function.update c.loc i t'⟩ w :=
    fun ht => .inr (.inr (exists_update.2 (.inl ht)))
  rcases hn with hs | ht | hany
  · rcases hstack hs with hs' | ht'
    · exact .inl hs'
    · exact woken ht'
  · exact .inr (.inl (htoken ht))
  · rcases (exists_split i).1 hany with hown | hothers
    · rcases hwakes hown with ht' | ht'
      · exact .inr (.inl ht')
      · exact woken ht'
    · exact .inr (.inr (exists_update.2 (.inr hothers)))

omit [DecidableEq ω] in
/-- A marked worker is past its registration. -/
theorem ParkThread.registered_of_marked {t : ParkThread ω H} (h : t.marked = true) :
    t.registered = true := by
  cases t with
  | producer => rfl
  | worker n pc =>
    cases pc with
    | register => cases h
    | _ => rfl

omit [DecidableEq π] in
/-- A worker marks itself by being on the stack. -/
theorem ParkTrans.mem_idleStack {s s' : Parking ω H} {w : ω} {t t' : ParkThread ω H}
    (h : ParkTrans (π := π) s (.inl w) t s' t') (ht : t.marked = false) (ht' : t'.marked = true) :
    w ∈ s'.idleStack := by
  cases h with
  | mark => exact List.mem_cons_self
  | markAgain hw => exact hw
  | @work _ _ _ _ pc' _ _ _ hpc' | @unmarkNone _ _ _ pc' hpc' | @unmarkCount _ _ _ _ pc' hpc' =>
    cases pc' with
    | markCount | recheck | park => cases hpc'
    | _ => cases ht'
  | markCount | recheckNone => cases ht
  | _ => cases ht'

/-- A marked worker is on the stack, has a token, or is about to get one, in every state reached. -/
theorem reachable_noticed (h : (parkMachine ω H π).Reachable G c) (w : ω)
    (hw : (c.loc (.inl w)).marked = true) : Noticed c w := by
  refine Threads.invariant (J := (parkMachine ω H π).Reachable G)
    (I := fun c => (c.loc (.inl w)).marked = true → Noticed c w) h (fun _ h => h) nofun ?_ hw
  rintro c i a s' _ t' hr hI _ rfl hst hmarked
  have ht := parkStep_trans hst
  have still : (c.loc (.inl w)).marked = true → (i = .inl w → t'.marked = true) →
      Noticed ⟨s', Function.update c.loc i t'⟩ w := by
    intro hm hi
    have hreg := reachable_registered hr (ParkThread.registered_of_marked hm)
    exact (hI hm).step ht hi hreg
  by_cases hiw : i = .inl w
  · subst hiw
    simp only [Function.update_self] at hmarked
    cases hm : (c.loc (.inl w)).marked with
    | false => exact .inl (ht.mem_idleStack hm hmarked)
    | true => exact still hm fun _ => hmarked
  · simp only [Function.update_of_ne (Ne.symm hiw)] at hmarked
    exact still hmarked fun heq => absurd heq hiw

/-! ## The result -/

/-- The worker is blocked in `park`: it has no unpark token. -/
def Blocked (c : ParkConfig ω H π) (w : ω) : Prop :=
  (∃ n, c.loc (.inl w) = .worker n .park) ∧ c.shared.token w = false

section
variable [Fintype ω] [Fintype π]

omit [Fintype ω] [Fintype π] in
/-- Where every worker is blocked and every producer is between two calls, the workers are on the
stack. -/
theorem mem_idleStack_of_blocked (h : (parkMachine ω H π).Reachable G c)
    (hblocked : ∀ v, Blocked c v) (hidle : ∀ i, c.loc (.inr i) = .producer .idle) (w : ω) :
    w ∈ c.shared.idleStack := by
  obtain ⟨⟨n, hpark⟩, htoken⟩ := hblocked w
  rcases reachable_noticed h w (by rw [hpark]; rfl) with hs | ht | ⟨i, hi⟩
  · exact hs
  · rw [htoken] at ht
    cases ht
  · cases i with
    | inl v =>
      obtain ⟨⟨m, hv⟩, -⟩ := hblocked v
      rw [hv] at hi
      cases hi
    | inr i =>
      rw [hidle i] at hi
      cases hi

/-- There the counter is the length of the stack. -/
theorem idleCount_of_blocked (h : (parkMachine ω H π).Reachable G c)
    (hblocked : ∀ v, Blocked c v) (hidle : ∀ i, c.loc (.inr i) = .producer .idle) :
    c.shared.idleCount = c.shared.idleStack.length := by
  have hpending : ∑ i, (c.loc i).pending = 0 := by
    refine Finset.sum_eq_zero fun i _ => ?_
    cases i with
    | inl v =>
      obtain ⟨⟨n, hv⟩, -⟩ := hblocked v
      rw [hv]
      rfl
    | inr i =>
      rw [hidle i]
      rfl
  have hcount := reachable_idleCount h
  rw [total, hpending, Parking.ahead] at hcount
  omega

/-- There is no missed wake-up: in no state reached by any interleaving is the injector not empty,
every worker blocked in `park` without an unpark token, and every producer between two calls. There
is at least one worker, `w`. -/
theorem no_missed_wakeup (h : (parkMachine ω H π).Reachable anyStep c) (w : ω) :
    ¬ (c.shared.injector ≠ [] ∧ (∀ v, Blocked c v) ∧ ∀ i, c.loc (.inr i) = .producer .idle) := by
  rintro ⟨hinj, hblocked, hidle⟩
  have hstack := mem_idleStack_of_blocked h hblocked hidle w
  have hcount := idleCount_of_blocked h hblocked hidle
  have hpos := List.length_pos_of_mem hstack
  cases h with
  | refl => exact hinj rfl
  | @tail c₀ _ a hr _ hst =>
    obtain ⟨s', t', hp, rfl⟩ := step_iff.1 hst
    have ht := parkStep_trans hp
    -- the last step parks a worker or ends the call of a producer
    obtain ⟨i, b⟩ := a
    have hown : Function.update c₀.loc i t' i = t' := Function.update_self ..
    cases i with
    | inl v =>
      obtain ⟨⟨n, hv⟩, -⟩ := hblocked v
      have htn : t' = .worker n .park := hown.symm.trans hv
      generalize c₀.loc (.inl v) = t at ht
      subst htn
      cases ht with
      | recheckNone hnil => exact hinj hnil
      | work _ _ hpc | unmarkNone hpc | unmarkCount hpc => cases hpc
    | inr j =>
      have htn : t' = .producer .idle := hown.symm.trans (hidle j)
      generalize c₀.loc (.inr j) = t at ht
      subst htn
      cases ht with
      | loadNone hzero =>
        have hzero' : (0 : ℤ) = _ := hzero.symm.trans hcount
        omega
      | popNone hnil =>
        rw [hnil] at hstack
        cases hstack
      | @unpark _ v =>
        have htoken : Function.update c₀.shared.token v true v = false := (hblocked v).2
        rw [Function.update_self] at htoken
        cases htoken

end

/-- A worker that finds nothing and marks itself idle, and a producer that pushes a task and reads
the counter between the worker's push to the stack and its count. -/
def staleCountRun : List ((Unit ⊕ Unit) × ParkLabel ℕ) :=
  [(.inl (), .go), (.inl (), .go), (.inl (), .attempt (.batch 0)), (.inl (), .attempt (.batch 0)),
    (.inl (), .attempt (.batch 0)), (.inl (), .start 0)] ++
  (List.replicate 32 [(.inl (), .go), (.inl (), .attempt (.batch 0))]).flatten ++
  [(.inl (), .go), (.inl (), .go), (.inr (), .inject 5), (.inr (), .go), (.inr (), .go), (.inl (), .go)]

/-- In that run the producer unparks nobody, and the worker has its second look at the injector
before it. -/
theorem no_missed_wakeup_stale_count :
    ∃ c, (parkMachine Unit ℕ Unit).run (parkMachine Unit ℕ Unit).init staleCountRun =
        some c ∧
      c.shared.injector = [5] ∧ c.loc (.inr ()) = .producer .idle ∧
      c.loc (.inl ()) = .worker 1 .recheck ∧
      ¬ (c.shared.injector ≠ [] ∧ (∀ v, Blocked c v) ∧ ∀ i, c.loc (.inr i) = .producer .idle) :=
  ⟨_, rfl, rfl, rfl, rfl, no_missed_wakeup (Machine.reach_of_run staleCountRun rfl) ()⟩

end Hypertile
