import Hypertile.Stop.Wake

/-!
# Joining the workers

`Runtime::shutdown` takes the handles of all worker threads under one lock and joins those that are
not its own. So one call takes the handles, whoever else calls it (`reachable_taker`), a handle is
joined once (`reachable_joined`), and never by the thread itself. When the call that has taken the
handles returns, the other workers have ended; a call that came later finds no handle, and returns
without waiting (`shutdown_joins`, `shutdown_joins_late_caller`).

`shutdown_with_timeout` joins nobody: it counts the registered workers. A worker is registered from
before its first look at `running` until it has left its loop, so where it has counted none no
worker runs a task any more, not even one that is about to start (`timeout_stops`).
-/

namespace Hypertile

open Machine Machine.Threads

variable {ω π H : Type} [DecidableEq ω] [DecidableEq π]

/-! ## Events and calls -/

namespace StopEvent

/-- The worker thread was joined. -/
def isJoined {ι : Type} (w : ω) : StopEvent ι ω → Bool
  | .joined _ v => decide (v = w)
  | _ => false

/-- A call of `shutdown` that had taken handles returned. -/
def returnedTaker {ι : Type} : StopEvent ι ω → Bool
  | .shutdownReturned _ taken => !taken.isEmpty
  | _ => false

end StopEvent

namespace StopThread

/-- The worker threads that the thread has still to join. -/
def joins (t : StopThread ω H) : List ω :=
  match t.call with
  | some (.join rest _) => rest
  | _ => []

/-- The thread is in the call that has taken the handles. -/
def tookThreads (t : StopThread ω H) : Bool :=
  match t.call with
  | some (.join _ taken) => !taken.isEmpty
  | _ => false

end StopThread

/-- What is known of a call of `shutdown` that joins: it has taken all handles or none, what is left
of them is not its own, and what it has done with was its own or has ended. -/
def StopThread.JoinOk (pool : List ω) (i : ω ⊕ π) (s : Stopping ω π H) (t : StopThread ω H) :
    Prop :=
  ∀ rest taken, t.call = some (.join rest taken) →
    (taken = [] ∨ taken = pool) ∧ (∀ w ∈ rest, w ∈ taken ∧ .inl w ≠ i) ∧
      ∀ w ∈ taken, .inl w ≠ i → w ∈ rest ∨ s.ended w = true

section
variable {i : ω ⊕ π} {s s' : Stopping ω π H} {t t' : StopThread ω H} {a : StopLabel H}

/-! ## The steps -/

omit [DecidableEq ω] in
/-- After `set_running` a call does not join yet. -/
theorem next_ne_join (kind : StopKind) (rest taken : List ω) :
    kind.next ≠ some (.join rest taken) := by
  cases kind <;> simp [StopKind.next]

omit [DecidableEq ω] in
/-- After `set_running` a call has not taken the handles yet. -/
theorem next_joins {kind : StopKind} {pc : StopPc ω H} :
    (StopThread.mk pc kind.next).joins = [] ∧
      (StopThread.mk pc kind.next).tookThreads = false := by
  cases kind <;> exact ⟨rfl, rfl⟩

omit [DecidableEq π] in
/-- A thread in no call changes neither the handles nor the log. -/
theorem StopOwnTrans.keeps {pc pc' : StopPc ω H} (h : StopOwnTrans s i pc a s' pc') :
    s'.workerThreads = s.workerThreads ∧ s'.log = s.log := by
  cases h with
  | inject hst | injected hst | unparkOneIdle hst | ended hst | producer hst =>
    obtain ⟨q, hq, rfl⟩ := Stopping.producerStep_some hst
    exact ⟨rfl, rfl⟩
  | _ => exact ⟨rfl, rfl⟩

/-- The handles are taken by one call. -/
theorem StopTrans.taker (h : StopTrans i s t a s' t') :
    ((!s'.workerThreads.isEmpty).toNat + s'.log.countP StopEvent.returnedTaker) +
        t'.tookThreads.toNat =
      ((!s.workerThreads.isEmpty).toNat + s.log.countP StopEvent.returnedTaker) +
        t.tookThreads.toNat := by
  cases h with
  | begin => rfl
  | call hc =>
    cases hc with
    | unparked => rw [next_joins.2]; rfl
    | takeThreads =>
      simp only [StopThread.tookThreads, List.isEmpty_nil, Bool.not_true, Bool.toNat_false]
      omega
    | @joined taken =>
      cases taken with
      | nil => rfl
      | cons w taken =>
        simp only [Stopping.emit, StopThread.tookThreads, StopEvent.returnedTaker,
          List.countP_cons, List.isEmpty_cons, Bool.not_false, Bool.toNat_true, Bool.toNat_false,
          if_true]
        omega
    | _ => rfl
  | own ho => rw [ho.keeps.1, ho.keeps.2]; rfl

/-- A handle is joined once. -/
theorem StopTrans.joined (h : StopTrans i s t a s' t') (w : ω) :
    (s'.workerThreads.count w + s'.log.countP (StopEvent.isJoined w)) + t'.joins.count w ≤
      (s.workerThreads.count w + s.log.countP (StopEvent.isJoined w)) + t.joins.count w := by
  cases h with
  | begin => exact le_rfl
  | call hc =>
    cases hc with
    | unparked => rw [next_joins.1]; exact le_rfl
    | takeThreads =>
      have hle : (s.workerThreads.filter fun v => .inl v ≠ i).count w ≤ s.workerThreads.count w :=
        List.Sublist.count_le w List.filter_sublist
      simp only [StopThread.joins, List.count_nil]
      omega
    | @join v rest taken =>
      simp only [StopThread.joins, Stopping.emit, List.countP_cons, List.count_cons,
        StopEvent.isJoined, decide_eq_true_eq, beq_iff_eq]
      omega
    | _ => exact le_rfl
  | own ho => rw [ho.keeps.1, ho.keeps.2]; exact le_rfl

/-- A worker thread that has ended stays so. -/
theorem StopTrans.ended_mono (h : StopTrans i s t a s' t') {w : ω} (hw : s.ended w = true) :
    s'.ended w = true := by
  cases h with
  | begin => exact hw
  | call hc => cases hc <;> exact hw
  | own ho =>
    cases ho with
    | ended hst =>
      obtain ⟨q, hq, rfl⟩ := Stopping.producerStep_some hst
      simp only [Function.update_apply]
      split
      · rfl
      · exact hw
    | inject hst | injected hst | unparkOneIdle hst | producer hst =>
      obtain ⟨q, hq, rfl⟩ := Stopping.producerStep_some hst
      exact hw
    | _ => exact hw

/-- A thread that moves has not ended before, and has recorded it when it has ended after. -/
theorem StopTrans.ended_iff {w : ω} (h : StopTrans (.inl w) s t a s' t')
    (hiff : s.ended w = true ↔ t.pc = .ended) : s'.ended w = true ↔ t'.pc = .ended := by
  cases h with
  | begin => exact hiff
  | call hc => cases hc <;> exact hiff
  | own ho =>
    cases ho with
    | ended hst =>
      obtain ⟨q, hq, rfl⟩ := Stopping.producerStep_some hst
      simp
    | inject hst | injected hst | unparkOneIdle hst =>
      obtain ⟨q, hq, rfl⟩ := Stopping.producerStep_some hst
      simpa using hiff
    | _ => exact ⟨fun hw => by simpa using hiff.1 hw, fun hpc => by cases hpc⟩

/-- Other threads do not end a worker thread. -/
theorem StopTrans.ended_other {w : ω} (h : StopTrans i s t a s' t') (hi : i ≠ .inl w) :
    s'.ended w = s.ended w := by
  cases h with
  | begin => rfl
  | call hc => cases hc <;> rfl
  | own ho =>
    cases ho with
    | @ended v _ _ hst =>
      obtain ⟨q, hq, rfl⟩ := Stopping.producerStep_some hst
      have hne : w ≠ v := fun heq => hi (by rw [heq])
      exact Function.update_of_ne hne ..
    | inject hst | injected hst | unparkOneIdle hst | producer hst =>
      obtain ⟨q, hq, rfl⟩ := Stopping.producerStep_some hst
      rfl
    | _ => rfl

/-- What is known of a call that joins is kept by its own steps. -/
theorem StopTrans.joinOk {pool : List ω} (h : StopTrans i s t a s' t')
    (hpool : s.workerThreads = [] ∨ s.workerThreads = pool) (ht : t.JoinOk pool i s) :
    t'.JoinOk pool i s' := by
  cases h with
  | begin => nofun
  | call hc =>
    intro rest taken hcall
    cases hc with
    | unparked => exact absurd hcall (next_ne_join _ rest taken)
    | takeThreads =>
      cases hcall
      refine ⟨hpool, fun w hw => ?_, fun w hw hne => .inl ?_⟩
      · simpa using hw
      · exact List.mem_filter.2 ⟨hw, by simpa using hne⟩
    | @join v rest taken hended =>
      cases hcall
      obtain ⟨htaken, hrest, hdone⟩ := ht _ _ rfl
      refine ⟨htaken, fun w hw => hrest w (List.mem_cons_of_mem v hw), fun w hw hne => ?_⟩
      rcases hdone w hw hne with hmem | hend
      · rcases List.mem_cons.1 hmem with rfl | hmem
        · exact .inr hended
        · exact .inl hmem
      · exact .inr hend
    | _ => cases hcall
  | own => nofun

end

/-! ## The states reached -/

variable {pool : List ω} {c : StopConfig ω π H}
  {G : StopConfig ω π H → (ω ⊕ π) × StopLabel H → Prop}

/-- A worker thread has ended when it is recorded to. -/
theorem reachable_ended (h : (stopMachine pool).Reachable G c) (w : ω) :
    c.shared.ended w = true ↔ (c.loc (.inl w)).pc = .ended := by
  refine stop_local (L := fun j s t => ∀ w, j = .inl w → (s.ended w = true ↔ t.pc = .ended)) h
    ?_ ?_ ?_ (.inl w) w rfl
  · rintro j w rfl
    exact ⟨nofun, nofun⟩
  · rintro i s t a s' t' hL ht w rfl
    exact ht.ended_iff (hL w rfl)
  · rintro i s t a s' t' j u hj ht hL w rfl
    rw [ht.ended_other hj.symm]
    exact hL w rfl

/-- The handles that have not been taken are all of them, until they are taken. -/
theorem reachable_workerThreads (h : (stopMachine pool).Reachable G c) :
    c.shared.workerThreads = [] ∨ c.shared.workerThreads = pool := by
  refine Threads.invariant (J := fun _ => True)
    (I := fun c => c.shared.workerThreads = [] ∨ c.shared.workerThreads = pool) h
    (fun _ _ => trivial) (.inr rfl) ?_
  rintro c i a s' t t' _ hI _ _ hst
  cases stopStep_trans hst with
  | begin => exact hI
  | call hc =>
    cases hc with
    | takeThreads => exact .inl rfl
    | _ => exact hI
  | own ho => exact ho.keeps.1.symm ▸ hI

/-- What is known of a call that joins. -/
theorem reachable_joinOk (h : (stopMachine pool).Reachable G c) (j : ω ⊕ π) :
    (c.loc j).JoinOk pool j c.shared := by
  refine invariant_local (J := (stopMachine pool).Reachable G)
    (L := fun j s t => StopThread.JoinOk pool j s t) h (fun _ h => h) ?_ ?_ ?_ j
  · intro j
    nofun
  · rintro c i a s' _ t' hr _ rfl hL hst
    exact (stopStep_trans hst).joinOk (reachable_workerThreads hr) hL
  · rintro c i a s' _ t' j _ _ rfl _ hst hL rest taken hcall
    obtain ⟨htaken, hrest, hdone⟩ := hL rest taken hcall
    exact ⟨htaken, hrest,
      fun w hw hne => (hdone w hw hne).imp_right (stopStep_trans hst).ended_mono⟩

section
variable [Fintype ω] [Fintype π]

/-- The handles are with the runtime, with one call, or with one that has returned. -/
theorem reachable_taker (h : (stopMachine pool).Reachable G c) :
    total (fun s : Stopping ω π H => (!s.workerThreads.isEmpty).toNat +
      s.log.countP StopEvent.returnedTaker) (fun t => t.tookThreads.toNat) c =
      (!pool.isEmpty).toNat := by
  refine Threads.invariant (J := fun _ => True) (I := fun c => total _ _ c = _) h
    (fun _ _ => trivial) ?_ ?_
  · exact Nat.add_eq_left.2 (Finset.sum_eq_zero fun _ _ => rfl)
  · rintro c i a s' _ t' _ hI _ rfl hst
    rw [total_step (stopStep_trans hst).taker, hI]

/-- Each handle is with the runtime, with a call that has still to join it, or joined. -/
theorem reachable_joined (h : (stopMachine pool).Reachable G c) (w : ω) :
    total (fun s : Stopping ω π H => s.workerThreads.count w +
      s.log.countP (StopEvent.isJoined w)) (fun t => t.joins.count w) c ≤ pool.count w := by
  refine Threads.invariant (J := fun _ => True) (I := fun c => total _ _ c ≤ _) h
    (fun _ _ => trivial) ?_ ?_
  · exact le_of_eq (Nat.add_eq_left.2 (Finset.sum_eq_zero fun _ _ => rfl))
  · rintro c i a s' _ t' _ hI _ rfl hst
    exact (total_step_le ((stopStep_trans hst).joined w)).trans hI

omit [Fintype ω] [Fintype π] in
/-- A call that has still to join a worker thread has taken the handles. -/
theorem tookThreads_of_joins (h : (stopMachine pool).Reachable G c) {i : ω ⊕ π}
    (hi : (c.loc i).joins ≠ []) : (c.loc i).tookThreads = true := by
  have hok := reachable_joinOk h i
  rcases hc : c.loc i with ⟨pc, call⟩
  rw [hc] at hi hok
  unfold StopThread.joins at hi
  split at hi
  · next rest taken hcall =>
    obtain ⟨w, rest', rfl⟩ := List.exists_cons_of_ne_nil hi
    have hmem := ((hok _ _ hcall).2.1 w List.mem_cons_self).1
    cases hcall
    simpa [StopThread.tookThreads] using List.ne_nil_of_mem hmem
  · exact absurd rfl hi

/-- One call joins at a time. -/
theorem joiner_unique (h : (stopMachine pool).Reachable G c) {i j : ω ⊕ π}
    (hi : (c.loc i).joins ≠ []) (hj : (c.loc j).joins ≠ []) : i = j := by
  have hle : (!pool.isEmpty).toNat ≤ 1 := Bool.toNat_le _
  refine holder_unique ((reachable_taker h).trans_le hle) ?_ ?_
  · simp [tookThreads_of_joins h hi]
  · simp [tookThreads_of_joins h hj]

end

/-! ## Joins are in order -/

/-- What the joins of a runtime are, whoever calls `shutdown` and how often. -/
structure JoinsOk (pool : List ω) (c : StopConfig ω π H) : Prop where
  /-- A worker thread is joined no more often than the runtime has handles of it. -/
  once (w : ω) : c.shared.log.countP (StopEvent.isJoined w) ≤ pool.count w
  /-- A thread that joins is not the one that is joined, which has ended. -/
  ended {i : ω ⊕ π} {w : ω} (h : .joined i w ∈ c.shared.log) :
    .inl w ≠ i ∧ (c.loc (.inl w)).pc = .ended
  /-- A thread that waits for others to end does not wait for itself, and no other thread waits. -/
  waits {i : ω ⊕ π} {w : ω} (h : w ∈ (c.loc i).joins) :
    .inl w ≠ i ∧ ∀ j, (c.loc j).joins ≠ [] → j = i
  /-- Of all calls that have returned, one at most had taken handles, and these were all. -/
  takers : c.shared.log.countP StopEvent.returnedTaker ≤ 1
  taken {i : ω ⊕ π} {taken : List ω} (h : .shutdownReturned i taken ∈ c.shared.log) :
    taken = [] ∨ taken = pool
  /-- When it returned the worker threads had ended, its own left out. -/
  returned {i : ω ⊕ π} {taken : List ω} (h : .shutdownReturned i taken ∈ c.shared.log) {w : ω}
    (hw : w ∈ taken) (hne : .inl w ≠ i) : (c.loc (.inl w)).pc = .ended

/-- What an event of the log says. -/
def StopEvent.Justified (pool : List ω) (s : Stopping ω π H) : StopEvent (ω ⊕ π) ω → Prop
  | .joined i w => .inl w ≠ i ∧ s.ended w = true
  | .shutdownReturned i taken =>
    (taken = [] ∨ taken = pool) ∧ ∀ w ∈ taken, .inl w ≠ i → s.ended w = true
  | .timeoutReturned _ _ => True

/-- What an event says stays true. -/
theorem StopTrans.justified {i : ω ⊕ π} {s s' : Stopping ω π H} {t t' : StopThread ω H}
    {a : StopLabel H} (h : StopTrans i s t a s' t') (ht : t.JoinOk pool i s)
    (hs : ∀ e ∈ s.log, StopEvent.Justified pool s e) :
    ∀ e ∈ s'.log, StopEvent.Justified pool s' e := by
  have hmono : ∀ e ∈ s.log, StopEvent.Justified pool s' e := by
    intro e he
    have hold := hs e he
    cases e with
    | joined j w => exact ⟨hold.1, h.ended_mono hold.2⟩
    | shutdownReturned j taken =>
      exact ⟨hold.1, fun w hw hne => h.ended_mono (hold.2 w hw hne)⟩
    | timeoutReturned => trivial
  cases h with
  | begin => exact hmono
  | call hc =>
    cases hc with
    | @join w rest taken hended =>
      have hne := ((ht _ _ rfl).2.1 w List.mem_cons_self).2
      exact List.forall_mem_cons.2 ⟨⟨hne, hended⟩, hmono⟩
    | @joined taken =>
      obtain ⟨htaken, -, hdone⟩ := ht _ _ rfl
      refine List.forall_mem_cons.2 ⟨⟨htaken, fun w hw hne => ?_⟩, hmono⟩
      exact (hdone w hw hne).resolve_left List.not_mem_nil
    | count => exact List.forall_mem_cons.2 ⟨trivial, hmono⟩
    | _ => exact hmono
  | own ho => exact ho.keeps.2.symm ▸ hmono

/-- Every event of the log is justified. -/
theorem reachable_stopJustified (h : (stopMachine pool).Reachable G c) :
    ∀ e ∈ c.shared.log, StopEvent.Justified pool c.shared e := by
  refine Threads.invariant (J := (stopMachine pool).Reachable G)
    (I := fun c => ∀ e ∈ c.shared.log, StopEvent.Justified pool c.shared e) h (fun _ h => h)
    nofun ?_
  rintro c i a s' _ t' hr hI _ rfl hst
  exact (stopStep_trans hst).justified (reachable_joinOk hr i) hI

/-- The worker threads of a runtime are joined in order, in every state reached by any interleaving
of calls of `shutdown`, made by tasks on the workers or by other threads, with the workers. -/
theorem shutdown_joins [Fintype ω] [Fintype π] (h : (stopMachine pool).Reachable anyStep c) :
    JoinsOk pool c where
  once w := by
    have hle := le_total (fun s : Stopping ω π H => s.workerThreads.count w +
      s.log.countP (StopEvent.isJoined w)) (fun t => t.joins.count w) c (.inl w)
    have := reachable_joined h w
    omega
  ended {i w} hmem := by
    obtain ⟨hne, hended⟩ := reachable_stopJustified h _ hmem
    exact ⟨hne, (reachable_ended h w).1 hended⟩
  waits {i w} hmem := by
    refine ⟨?_, fun j hj => joiner_unique h hj (List.ne_nil_of_mem hmem)⟩
    have hok := reachable_joinOk h i
    rcases hc : c.loc i with ⟨pc, call⟩
    rw [hc] at hmem hok
    unfold StopThread.joins at hmem
    split at hmem
    · next rest taken hcall => exact ((hok _ _ hcall).2.1 w hmem).2
    · cases hmem
  takers := by
    have htotal := reachable_taker h
    have hle : (!pool.isEmpty).toNat ≤ 1 := Bool.toNat_le _
    rw [total] at htotal
    omega
  taken hmem := (reachable_stopJustified h _ hmem).1
  returned hmem w hw hne :=
    (reachable_ended h w).1 ((reachable_stopJustified h _ hmem).2 w hw hne)

/-- A task on one worker calls `shutdown` and joins the other worker, which has yet to start, when
another thread calls it. -/
def lateCallerRun : List ((Bool ⊕ Unit) × StopLabel ℕ) :=
  [(.inr (), .park (.inject 5)), (.inr (), .park .go), (.inr (), .park .go),
    (.inl false, .park .go), (.inl false, .park .go), (.inl false, .park (.attempt (.batch 0))),
    (.inl false, .call .shutdown)] ++
  List.replicate 5 (.inl false, .park .go) ++
  [(.inr (), .call .shutdown)] ++ List.replicate 6 (.inr (), .park .go)

/-- The later call returns at once, while the workers run. -/
theorem shutdown_joins_late_caller :
    ∃ c, (stopMachine [false, true]).run (stopMachine [false, true]).init lateCallerRun = some c ∧
      c.shared.log = [.shutdownReturned (.inr ()) []] ∧ (c.loc (.inl false)).joins = [true] ∧
      JoinsOk [false, true] c :=
  ⟨_, rfl, rfl, rfl, shutdown_joins (Machine.reach_of_run lateCallerRun rfl)⟩

/-! ## Counting the workers -/

/-- The thread is a worker. -/
def StopPc.isWorker : StopPc ω H → Bool
  | .producer _ => false
  | _ => true

/-- The worker is in `run_loop`, past a check of `running`. -/
def StopPc.looping : StopPc ω H → Bool
  | .loop _ .register | .loop _ .top => false
  | .loop _ _ => true
  | _ => false

/-- The thread is in a call that has stored `running`. -/
def StopThread.stored (t : StopThread ω H) : Bool :=
  match t.call with
  | some (.store _) | none => false
  | some _ => true

section
variable {i : ω ⊕ π} {s s' : Stopping ω π H} {t t' : StopThread ω H} {a : StopLabel H}

/-- A core that has been stopped stays so. -/
theorem StopTrans.stopped (h : StopTrans i s t a s' t') (hs : s.running = false) :
    s'.running = false := by
  cases h with
  | begin => exact hs
  | call hc =>
    cases hc with
    | store => rfl
    | _ => exact hs
  | own ho =>
    cases ho with
    | inject hst | injected hst | unparkOneIdle hst | ended hst | producer hst =>
      obtain ⟨q, hq, rfl⟩ := Stopping.producerStep_some hst
      exact hs
    | _ => exact hs

/-- A call that has stored `running` finds the core stopped. -/
theorem StopTrans.stored (h : StopTrans i s t a s' t')
    (hs : t.stored = true → s.running = false) (ht' : t'.stored = true) : s'.running = false := by
  cases h with
  | begin => cases ht'
  | call hc =>
    cases hc with
    | store => rfl
    | joined | count => cases ht'
    | _ => exact hs rfl
  | own => cases ht'

/-- Workers stay workers, and other threads stay what they are. -/
theorem StopTrans.isWorker (h : StopTrans i s t a s' t') : t'.pc.isWorker = t.pc.isWorker := by
  cases h with
  | begin | call => rfl
  | own ho => cases ho <;> rfl

/-- A call is made where it can be made. -/
theorem StopTrans.mayCall (h : StopTrans i s t a s' t')
    (ht : t.call ≠ none → t.pc.mayCall = true) : t'.call ≠ none → t'.pc.mayCall = true := by
  cases h with
  | begin hmay => exact fun _ => hmay
  | call => exact fun _ => ht (by simp)
  | own => exact fun hne => absurd rfl hne

/-- Where the core is stopped, no worker that is not in `run_loop` comes past a check. -/
theorem StopTrans.looping (h : StopTrans i s t a s' t') (hs : s.running = false)
    (ht : t.pc.looping = false) : t'.pc.looping = false := by
  cases h with
  | begin | call => exact ht
  | own ho =>
    cases ho with
    | head hrun =>
      rw [hs] at hrun
      cases hrun
    | timeout => cases ht
    | loop hst =>
      cases loopStep_cases hst with
      | register => rfl
      | _ => cases ht
    | _ => rfl

omit [DecidableEq ω] [DecidableEq π] in
/-- A worker in `run_loop` serves. -/
theorem StopPc.serving_of_looping {pc : StopPc ω H} (h : pc.looping = true) :
    pc.serving = true := by
  cases pc with
  | loop n pc =>
    refine StopPc.serving_loop ?_
    rintro rfl
    cases h
  | _ => cases h

omit [DecidableEq ω] [DecidableEq π] in
/-- A worker that can make a call is in `run_loop`. -/
theorem StopPc.looping_of_mayCall {pc : StopPc ω H} (hmay : pc.mayCall = true)
    (hworker : pc.isWorker = true) : pc.looping = true := by
  cases pc with
  | loop n pc =>
    cases pc with
    | run => rfl
    | _ => cases hmay
  | producer => cases hworker
  | _ => cases hmay

end

/-- Workers stay workers, and other threads stay what they are. -/
theorem reachable_stopIsWorker (h : (stopMachine pool).Reachable G c) (j : ω ⊕ π) :
    (c.loc j).pc.isWorker = j.isLeft := by
  refine stop_local (L := fun j _ t => t.pc.isWorker = j.isLeft) h ?_ ?_ ?_ j
  · intro j
    cases j <;> rfl
  · intro i s t a s' t' hL ht
    exact ht.isWorker.trans hL
  · intro i s t a s' t' j u _ _ hL
    exact hL

/-- A call is made where it can be made. -/
theorem reachable_mayCall (h : (stopMachine pool).Reachable G c) (j : ω ⊕ π) :
    (c.loc j).call ≠ none → (c.loc j).pc.mayCall = true := by
  refine stop_local (L := fun _ _ t => t.call ≠ none → t.pc.mayCall = true) h ?_ ?_ ?_ j
  · intro j hne
    exact absurd rfl hne
  · intro i s t a s' t' hL ht
    exact ht.mayCall hL
  · intro i s t a s' t' j u _ _ hL
    exact hL

/-- A call that has stored `running` finds the core stopped. -/
theorem reachable_stored (h : (stopMachine pool).Reachable G c) (j : ω ⊕ π) :
    (c.loc j).stored = true → c.shared.running = false := by
  refine stop_local (L := fun _ s t => t.stored = true → s.running = false) h ?_ ?_ ?_ j
  · intro j
    nofun
  · intro i s t a s' t' hL ht
    exact ht.stored hL
  · intro i s t a s' t' j u _ ht hL hu
    exact ht.stopped (hL hu)

/-- A worker in a call is registered. -/
theorem reachable_caller (h : (stopMachine pool).Reachable G c) {w : ω}
    (hcall : (c.loc (.inl w)).call ≠ none) : w ∈ c.shared.park.workers :=
  reachable_serving h (StopPc.serving_of_looping (StopPc.looping_of_mayCall
    (reachable_mayCall h _ hcall) (reachable_stopIsWorker h _)))

/-- What a count of the workers says of the state in which it is made. -/
theorem StopTrans.counted {i j : ω ⊕ π} {s' : Stopping ω π H} {t' : StopThread ω H}
    {a : StopLabel H} {n : ℕ} (h : StopTrans i c.shared (c.loc i) a s' t')
    (hmem : .timeoutReturned j n ∈ s'.log) :
    .timeoutReturned j n ∈ c.shared.log ∨
      i = j ∧ n = c.shared.park.workers.length ∧ (c.loc i).stored = true ∧
        (c.loc i).call ≠ none := by
  generalize c.loc i = t at h
  cases h with
  | begin => exact .inl hmem
  | call hc =>
    cases hc with
    | join | joined => exact .inl ((List.mem_cons.1 hmem).resolve_left (by simp))
    | count =>
      rcases List.mem_cons.1 hmem with heq | hmem
      · cases heq
        exact .inr ⟨rfl, rfl, rfl, by simp⟩
      · exact .inl hmem
    | _ => exact .inl hmem
  | own ho => exact .inl (ho.keeps.2 ▸ hmem)

/-- Where `shutdown_with_timeout` has returned that no worker is alive, no worker of `start_workers`
runs a task, then or ever after; and one that calls it from a task is counted. (A thread that
registers after that and calls `run_one` can run one.) -/
theorem timeout_stops (h : (stopMachine pool).Reachable anyStep c) :
    ((∃ i, .timeoutReturned i 0 ∈ c.shared.log) → c.shared.running = false ∧
      ∀ w, (c.loc (.inl w)).pc.looping = false) ∧
    ∀ w n, .timeoutReturned (.inl w) n ∈ c.shared.log → 0 < n := by
  refine Threads.invariant (J := (stopMachine pool).Reachable anyStep) (I := fun c =>
    ((∃ i, .timeoutReturned i 0 ∈ c.shared.log) → c.shared.running = false ∧
      ∀ w, (c.loc (.inl w)).pc.looping = false) ∧
    ∀ w n, .timeoutReturned (.inl w) n ∈ c.shared.log → 0 < n) h (fun _ h => h)
    ⟨nofun, nofun⟩ ?_
  rintro c i a s' _ t' hr ⟨hzero, hself⟩ _ rfl hst
  have ht := stopStep_trans hst
  refine ⟨?_, ?_⟩
  · rintro ⟨j, hmem⟩
    -- none is past a check before the step, so none is after it
    have hbefore : c.shared.running = false ∧ ∀ w, (c.loc (.inl w)).pc.looping = false := by
      rcases ht.counted hmem with hold | ⟨rfl, hn, hstored, -⟩
      · exact hzero ⟨j, hold⟩
      · refine ⟨reachable_stored hr i hstored, fun w => Bool.eq_false_iff.2 fun hloop => ?_⟩
        have hreg := reachable_serving hr (StopPc.serving_of_looping hloop)
        rw [List.eq_nil_of_length_eq_zero hn.symm] at hreg
        cases hreg
    refine ⟨ht.stopped hbefore.1, fun w => ?_⟩
    by_cases hiw : i = .inl w
    · subst hiw
      simpa using ht.looping hbefore.1 (hbefore.2 w)
    · simpa [Function.update_of_ne (Ne.symm hiw)] using hbefore.2 w
  · intro w n hmem
    rcases ht.counted hmem with hold | ⟨rfl, rfl, -, hcall⟩
    · exact hself w n hold
    · exact List.length_pos_of_mem (reachable_caller hr hcall)

/-- `shutdown_with_timeout` counts no worker while one is dropping its guard and the other has yet
to start; then that one starts. -/
def lateWorkerRun : List ((Bool ⊕ Unit) × StopLabel ℕ) :=
  [(.inl false, .park .go), (.inr (), .call .shutdownWithTimeout)] ++
  List.replicate 4 (.inr (), .park .go) ++ List.replicate 4 (.inl false, .park .go) ++
  List.replicate 2 (.inr (), .park .go) ++ List.replicate 2 (.inl true, .park .go)

/-- The worker that starts late leaves its loop at once. -/
theorem timeout_stops_late_worker :
    ∃ c, (stopMachine [false, true]).run (stopMachine [false, true]).init lateWorkerRun = some c ∧
      c.shared.log = [.timeoutReturned (.inr ()) 0] ∧ (c.loc (.inl true)).pc = .deregister ∧
      ∀ w, (c.loc (.inl w)).pc.looping = false :=
  ⟨_, rfl, rfl, rfl, ((timeout_stops (Machine.reach_of_run lateWorkerRun rfl)).1
    ⟨.inr (), List.mem_cons_self⟩).2⟩

end Hypertile
