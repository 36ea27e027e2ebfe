import Hypertile.Park.Measure
import Hypertile.Stop.Core

/-!
# Who is unparked when a runtime is stopped

A worker past its check of `running` may come to park. Until it does, the core still runs, or the
worker has an unpark token, or a call that stored `running` has yet to unpark it
(`reachable_alerted`): a worker is registered from before its first check until it drops its guard,
so `unpark_all` finds it. So the token is there when the worker parks, whatever the 5 ms of the
park.

The locks are held by threads that can go on: that of `workers` by an `unpark_all`
(`reachable_readers`) or by a `deregister` (`reachable_writing`), that of `idle_stack` by a thread
about to count (`reachable_idleLocked`).
-/

namespace Hypertile

open Machine Machine.Threads

variable {ω π H : Type} [DecidableEq ω]

/-! ## The parking model -/

namespace Parking

/-- What a producer leaves alone. -/
structure ProducerKeeps (s s' : Parking ω H) : Prop where
  workers : s'.workers = s.workers
  deque : s'.deque = s.deque
  token {w : ω} : s.token w = true → s'.token w = true

/-- A step of a producer gives tokens and takes none. -/
theorem producerKeeps {s s' : Parking ω H} {pc pc' : ProducerPc ω H} {a : ParkLabel H}
    (h : producerStep s pc a = some (s', pc')) : ProducerKeeps s s' := by
  cases producerStep_trans (i := ()) h with
  | unpark =>
    refine ⟨rfl, rfl, fun {w} ht => ?_⟩
    simp only [Function.update_apply]
    split
    · rfl
    · exact ht
  | _ => exact ⟨rfl, rfl, id⟩

end Parking

section
variable {s q : Parking ω H} {w : ω} {pc pc' : LoopPc ω H} {a : ParkLabel H}

/-- A worker in `run_loop` registers nobody. -/
theorem LoopTrans.workers (h : LoopTrans s w pc a q pc') (hpc : pc ≠ .register) :
    q.workers = s.workers := by
  cases h with
  | register => exact absurd rfl hpc
  | _ => rfl

/-- A worker in `run_loop` takes no token but its own. -/
theorem LoopTrans.token {v : ω} (h : LoopTrans s w pc a q pc') (hv : v ≠ w) :
    q.token v = s.token v := by
  cases h with
  | park => exact Function.update_of_ne hv ..
  | _ => rfl

/-- The worker is past its check of `running`, and comes to park if it finds no task. -/
def LoopPc.mayPark : LoopPc ω H → Bool
  | .find _ | .spin _ | .spinInjector _ | .mark | .markCount | .recheck | .park => true
  | _ => false

/-- A worker comes there from the head of the loop only, and keeps its token. -/
theorem LoopTrans.mayPark (h : LoopTrans s w pc a q pc') (hpc' : pc'.mayPark = true) :
    pc.mayPark = true ∧ q.token = s.token := by
  cases h with
  | @finish _ next => cases next <;> cases hpc'
  | @unmarkNone task | @unmarkCount task => cases task <;> cases hpc'
  | register | findGot | spawn | drainGot | drained | spinGot | spinInjectorGot | recheckGot | park
  | unmark => cases hpc'
  | _ => exact ⟨rfl, rfl⟩

end

/-! ## The steps of a producer -/

namespace Stopping

/-- A step of `inject` or `unpark_one_idle` is one of the parking model; its lookup waits for the
lock of `workers`. -/
theorem producerStep_some {s s' : Stopping ω π H} {pc pc' : ProducerPc ω H} {a : ParkLabel H}
    (h : s.producerStep pc a = some (s', pc')) :
    ∃ q, Hypertile.producerStep s.park pc a = some (q, pc') ∧ s' = { s with park := q } := by
  unfold producerStep at h
  split at h
  · cases h
  · obtain ⟨⟨q, pc₁⟩, hst, he⟩ := Option.map_eq_some_iff.1 h
    cases he
    exact ⟨q, hst, rfl⟩

end Stopping

/-! ## Registered workers -/

variable [DecidableEq π]

/-- The worker has registered, and not yet begun to drop its guard. -/
def StopPc.serving : StopPc ω H → Bool
  | .loop _ .register => false
  | .loop _ _ | .deregister => true
  | _ => false

omit [DecidableEq ω] [DecidableEq π] in
/-- In `run_loop` a worker serves. -/
theorem StopPc.serving_loop {n : ℕ} {pc : LoopPc ω H} (h : pc ≠ .register) :
    (StopPc.loop n pc).serving = true := by
  cases pc with
  | register => exact absurd rfl h
  | _ => rfl

/-- A step deregisters the worker that drops its guard, and nobody else. -/
theorem StopTrans.workers {i : ω ⊕ π} {s s' : Stopping ω π H} {t t' : StopThread ω H}
    {a : StopLabel H} (h : StopTrans i s t a s' t') {w : ω}
    (hi : i = .inl w → t'.pc.serving = true) (hw : w ∈ s.park.workers) : w ∈ s'.park.workers := by
  cases h with
  | begin => exact hw
  | call hc => cases hc <;> exact hw
  | own ho =>
    cases ho with
    | register => exact List.mem_cons_of_mem _ hw
    | loop hst hpc => exact ((loopStep_cases hst).workers hpc).symm ▸ hw
    | @deregister v =>
      have hne : w ≠ v := fun heq => Bool.false_ne_true (hi (by rw [heq]))
      exact List.mem_filter.2 ⟨hw, by simpa using hne⟩
    | inject hst | injected hst | unparkOneIdle hst | ended hst | producer hst =>
      obtain ⟨q, hq, rfl⟩ := Stopping.producerStep_some hst
      exact (Parking.producerKeeps hq).workers.symm ▸ hw
    | _ => exact hw

/-- A worker that comes to serve has registered. -/
theorem StopTrans.serving {w : ω} {s s' : Stopping ω π H} {t t' : StopThread ω H}
    {a : StopLabel H} (h : StopTrans (.inl w) s t a s' t') (ht' : t'.pc.serving = true) :
    t.pc.serving = true ∨ w ∈ s'.park.workers := by
  cases h with
  | begin | call => exact .inl ht'
  | own ho =>
    cases ho with
    | register => exact .inr List.mem_cons_self
    | loop hst hpc => exact .inl (StopPc.serving_loop hpc)
    | head | leave | timeout => exact .inl rfl
    | _ => cases ht'

variable {pool : List ω} {c : StopConfig ω π H}
  {G : StopConfig ω π H → (ω ⊕ π) × StopLabel H → Prop}

/-- The owner and interference rule of `stopMachine`. -/
theorem stop_local {L : ω ⊕ π → Stopping ω π H → StopThread ω H → Prop}
    (h : (stopMachine pool).Reachable G c)
    (h₀ : ∀ j, L j (.new pool)
      ⟨j.elim (fun _ => .loop 0 .register) fun _ => .producer .idle, none⟩)
    (own : ∀ i s t a s' t', L i s t → StopTrans i s t a s' t' → L i s' t')
    (other : ∀ i s t a s' t' j u, j ≠ i → StopTrans i s t a s' t' → L j s u → L j s' u)
    (j : ω ⊕ π) : L j c.shared (c.loc j) := by
  refine invariant_local (J := fun _ => True) (L := L) h (fun _ _ => trivial) h₀ ?_ ?_ j
  · rintro c i a s' _ t' _ _ rfl hL hst
    exact own i c.shared _ a s' t' hL (stopStep_trans hst)
  · rintro c i a s' _ t' j _ _ rfl hj hst hL
    exact other i c.shared _ a s' t' j (c.loc j) hj (stopStep_trans hst) hL

/-- A worker that serves is registered. -/
theorem reachable_serving (h : (stopMachine pool).Reachable G c) {w : ω}
    (hw : (c.loc (.inl w)).pc.serving = true) : w ∈ c.shared.park.workers := by
  refine stop_local (L := fun j s t => ∀ w, j = .inl w → t.pc.serving = true → w ∈ s.park.workers)
    h ?_ ?_ ?_ (.inl w) w rfl hw
  · rintro j w rfl hserv
    cases hserv
  · rintro i s t a s' t' hL ht w rfl hserv
    rcases ht.serving hserv with hbefore | hin
    · exact ht.workers (fun _ => hserv) (hL w rfl hbefore)
    · exact hin
  · rintro i s t a s' t' j u hj ht hL w rfl hserv
    exact ht.workers (fun heq => absurd heq.symm hj) (hL w rfl hserv)

/-! ## Alerted workers -/

/-- The worker is past its check of `running`, and comes to park if it finds no task. -/
def StopThread.mayPark (t : StopThread ω H) : Bool :=
  match t.pc with
  | .loop _ pc => pc.mayPark
  | _ => false

/-- The thread is in an `unpark_all` that has yet to come to the worker. -/
def StopThread.unparks (w : ω) (t : StopThread ω H) : Bool :=
  match t.call with
  | some (.unparkAll _) => true
  | some (.unparkEach _ rest) => decide (w ∈ rest)
  | _ => false

/-- The core runs, or the worker has a token, or somebody is about to give it one. -/
def Alerted (c : StopConfig ω π H) (w : ω) : Prop :=
  c.shared.running = true ∨ c.shared.park.token w = true ∨ ∃ i, (c.loc i).unparks w = true

omit [DecidableEq ω] [DecidableEq π] in
/-- A worker that may come to park serves. -/
theorem StopThread.serving_of_mayPark {t : StopThread ω H} (h : t.mayPark = true) :
    t.pc.serving = true := by
  obtain ⟨pc, call⟩ := t
  cases pc with
  | loop n pc =>
    refine StopPc.serving_loop ?_
    rintro rfl
    cases h
  | _ => cases h

/-- A worker that comes to where it may park has just seen the core run. -/
theorem StopTrans.mayPark {i : ω ⊕ π} {s s' : Stopping ω π H} {t t' : StopThread ω H}
    {a : StopLabel H} (h : StopTrans i s t a s' t') (ht' : t'.mayPark = true) :
    t.mayPark = true ∨ s'.running = true := by
  cases h with
  | begin | call => exact .inl ht'
  | own ho =>
    cases ho with
    | head hrun => exact .inr hrun
    | loop hst => exact .inl ((loopStep_cases hst).mayPark ht').1
    | _ => cases ht'

/-- What alerts a registered worker lasts until it has parked, up to the thread that hands it on. -/
theorem StopTrans.alerts {i : ω ⊕ π} {s s' : Stopping ω π H} {t t' : StopThread ω H}
    {a : StopLabel H} (h : StopTrans i s t a s' t') {w : ω}
    (hi : i = .inl w → t'.mayPark = true) (hw : w ∈ s.park.workers) :
    (s.running = true → s'.running = true ∨ t'.unparks w = true) ∧
      (s.park.token w = true → s'.park.token w = true) ∧
      (t.unparks w = true → s'.park.token w = true ∨ t'.unparks w = true) := by
  cases h with
  | begin => exact ⟨.inl, id, nofun⟩
  | call hc =>
    cases hc with
    | store => exact ⟨fun _ => .inr rfl, id, nofun⟩
    | unparkAll => exact ⟨.inl, id, fun _ => .inr (decide_eq_true hw)⟩
    | @unpark _ v rest =>
      have hset : ∀ {x : Bool}, (w = v ∨ x = true) →
          (if w = v then true else x) = true := by
        rintro x (rfl | rfl) <;> simp
      refine ⟨.inl, fun ht => ?_, fun hu => ?_⟩
      · exact (Function.update_apply ..).trans (hset (.inr ht))
      · rcases List.mem_cons.1 (of_decide_eq_true hu) with heq | hmem
        · exact .inl ((Function.update_apply ..).trans (hset (.inl heq)))
        · exact .inr (decide_eq_true hmem)
    | unparked => exact ⟨.inl, id, nofun⟩
    | _ => exact ⟨.inl, id, nofun⟩
  | own ho =>
    cases ho with
    | @loop v n pc pc' _ _ hst _ =>
      refine ⟨.inl, fun ht => ?_, nofun⟩
      by_cases heq : w = v
      · subst heq
        have hkeep := ((loopStep_cases hst).mayPark (hi rfl)).2
        exact (congrFun hkeep w).trans ht
      · exact ((loopStep_cases hst).token heq).trans ht
    | inject hst | injected hst | unparkOneIdle hst | ended hst | producer hst =>
      obtain ⟨q, hq, rfl⟩ := Stopping.producerStep_some hst
      exact ⟨.inl, (Parking.producerKeeps hq).token, nofun⟩
    | _ => exact ⟨.inl, id, nofun⟩

/-- A registered worker stays alerted until it has parked. -/
theorem Alerted.step {w : ω} {i : ω ⊕ π} {s' : Stopping ω π H} {t' : StopThread ω H}
    {a : StopLabel H} (ha : Alerted c w) (h : StopTrans i c.shared (c.loc i) a s' t')
    (hi : i = .inl w → t'.mayPark = true) (hw : w ∈ c.shared.park.workers) :
    Alerted ⟨s', Function.update c.loc i t'⟩ w := by
  obtain ⟨hrun, htoken, hunparks⟩ := h.alerts hi hw
  have handed : t'.unparks w = true → Alerted ⟨s', Function.update c.loc i t'⟩ w :=
    fun ht => .inr (.inr (exists_update.2 (.inl ht)))
  rcases ha with hr | ht | hany
  · rcases hrun hr with hr' | ht'
    · exact .inl hr'
    · exact handed ht'
  · exact .inr (.inl (htoken ht))
  · rcases (exists_split i).1 hany with hown | hothers
    · rcases hunparks hown with ht' | ht'
      · exact .inr (.inl ht')
      · exact handed ht'
    · exact .inr (.inr (exists_update.2 (.inr hothers)))

/-- A worker that may come to park is alerted, in every state reached. -/
theorem reachable_alerted (h : (stopMachine pool).Reachable G c) (w : ω)
    (hw : (c.loc (.inl w)).mayPark = true) : Alerted c w := by
  refine Threads.invariant (J := (stopMachine pool).Reachable G)
    (I := fun c => (c.loc (.inl w)).mayPark = true → Alerted c w) h (fun _ h => h) nofun ?_ hw
  rintro c i a s' _ t' hr hI _ rfl hst hmay
  have ht := stopStep_trans hst
  have still : (c.loc (.inl w)).mayPark = true → (i = .inl w → t'.mayPark = true) →
      Alerted ⟨s', Function.update c.loc i t'⟩ w := by
    intro hm hi
    exact (hI hm).step ht hi (reachable_serving hr (StopThread.serving_of_mayPark hm))
  by_cases hiw : i = .inl w
  · subst hiw
    simp only [Function.update_self] at hmay
    rcases ht.mayPark hmay with hm | hrun
    · exact still hm fun _ => hmay
    · exact .inl hrun
  · simp only [Function.update_of_ne (Ne.symm hiw)] at hmay
    exact still hmay fun heq => absurd heq hiw

/-! ## The locks -/

namespace StopPc

/-- The thread holds the lock of `idle_stack`. -/
def locksIdle : StopPc ω H → Bool
  | .loop _ pc => pc.counts
  | .deregisterCount _ => true
  | .inject pc | .unparkOneIdle pc | .producer pc => pc.counts
  | _ => false

/-- The thread holds the lock of `workers` for writing. -/
def locksWorkers : StopPc ω H → Bool
  | .deregisterIdle | .deregisterCount _ => true
  | _ => false

end StopPc

/-- The thread holds the lock of `workers` for reading. -/
def StopThread.readsWorkers (t : StopThread ω H) : Bool :=
  match t.call with
  | some (.unparkEach ..) => true
  | _ => false

section
variable {i : ω ⊕ π} {s s' : Stopping ω π H} {t t' : StopThread ω H} {a : StopLabel H}

/-- The lock of `idle_stack` is given up by who holds it. -/
theorem StopTrans.idleLocked (h : StopTrans i s t a s' t') :
    (t.pc.locksIdle = true → t'.pc.locksIdle = false → s'.park.locked = false) ∧
      (t.pc.locksIdle = false → t'.pc.locksIdle = false → s'.park.locked = s.park.locked) := by
  cases h with
  | begin => exact ⟨fun h h' => absurd h (by simp [h']), fun _ _ => rfl⟩
  | call hc =>
    refine ⟨fun h h' => absurd h (by simp [h']), fun _ _ => ?_⟩
    cases hc <;> rfl
  | own ho =>
    cases ho with
    | loop hst => exact (loopStep_cases hst).locked
    | deregisterIdle => exact ⟨nofun, nofun⟩
    | deregisterCount => exact ⟨fun _ _ => rfl, nofun⟩
    | inject hst | injected hst | unparkOneIdle hst | ended hst | producer hst =>
      obtain ⟨q, hq, rfl⟩ := Stopping.producerStep_some hst
      exact producerStep_locked hq
    | _ => exact ⟨nofun, fun _ _ => rfl⟩

/-- The lock of `workers` is given up by the `deregister` that holds it. -/
theorem StopTrans.writing (h : StopTrans i s t a s' t') :
    (t.pc.locksWorkers = true → t'.pc.locksWorkers = false → s'.writing = false) ∧
      (t.pc.locksWorkers = false → t'.pc.locksWorkers = false → s'.writing = s.writing) := by
  cases h with
  | begin => exact ⟨fun h h' => absurd h (by simp [h']), fun _ _ => rfl⟩
  | call hc =>
    refine ⟨fun h h' => absurd h (by simp [h']), fun _ _ => ?_⟩
    cases hc <;> rfl
  | own ho =>
    cases ho with
    | deregister | deregisterIdle => exact ⟨nofun, nofun⟩
    | deregisterCount => exact ⟨fun _ _ => rfl, nofun⟩
    | inject hst | injected hst | unparkOneIdle hst | ended hst | producer hst =>
      obtain ⟨q, hq, rfl⟩ := Stopping.producerStep_some hst
      exact ⟨nofun, fun _ _ => rfl⟩
    | _ => exact ⟨nofun, fun _ _ => rfl⟩

/-- An `unpark_all` holds the lock of `workers` for reading. -/
theorem StopTrans.readers (h : StopTrans i s t a s' t')
    (hle : t.readsWorkers.toNat ≤ s.readers) :
    s'.readers + t.readsWorkers.toNat = s.readers + t'.readsWorkers.toNat := by
  cases h with
  | begin => rfl
  | call hc =>
    cases hc with
    | @unparked kind =>
      have hle : 1 ≤ s.readers := hle
      have hnext : ∀ pc : StopPc ω H, (StopThread.mk pc kind.next).readsWorkers = false := by
        intro pc
        cases kind <;> rfl
      rw [hnext]
      exact Nat.sub_add_cancel hle
    | _ => rfl
  | own ho =>
    cases ho with
    | inject hst | injected hst | unparkOneIdle hst | ended hst | producer hst =>
      obtain ⟨q, hq, rfl⟩ := Stopping.producerStep_some hst
      rfl
    | _ => rfl

end

/-- Where the lock of `idle_stack` is held, some thread holds it. -/
theorem reachable_idleLocked (h : (stopMachine pool).Reachable G c)
    (hl : c.shared.park.locked = true) : ∃ i, (c.loc i).pc.locksIdle = true := by
  refine Threads.invariant (J := fun _ => True) (I := fun c => c.shared.park.locked = true →
    ∃ i, (c.loc i).pc.locksIdle = true) h (fun _ _ => trivial) nofun ?_ hl
  rintro c i a s' _ t' _ hI _ rfl hst
  have hkeep := (stopStep_trans hst).idleLocked
  exact @held_step _ _ _ _ _ (fun t : StopThread ω H => t.pc.locksIdle) _ _ _ hI hkeep.1 hkeep.2

/-- Where the lock of `workers` is held for writing, some thread holds it. -/
theorem reachable_writing (h : (stopMachine pool).Reachable G c)
    (hl : c.shared.writing = true) : ∃ i, (c.loc i).pc.locksWorkers = true := by
  refine Threads.invariant (J := fun _ => True) (I := fun c => c.shared.writing = true →
    ∃ i, (c.loc i).pc.locksWorkers = true) h (fun _ _ => trivial) nofun ?_ hl
  rintro c i a s' _ t' _ hI _ rfl hst
  have hkeep := (stopStep_trans hst).writing
  exact @held_step _ _ _ _ _ (fun t : StopThread ω H => t.pc.locksWorkers) _ _ _ hI hkeep.1
    hkeep.2

/-- The readers of `workers` are the calls of `unpark_all` that go through them. -/
theorem reachable_readers [Fintype ω] [Fintype π] (h : (stopMachine pool).Reachable G c) :
    c.shared.readers = ∑ i, (c.loc i).readsWorkers.toNat := by
  refine Threads.invariant (J := fun _ => True)
    (I := fun c => c.shared.readers = ∑ i, (c.loc i).readsWorkers.toNat) h (fun _ _ => trivial)
    ?_ ?_
  · exact (Finset.sum_eq_zero fun _ _ => rfl).symm
  · rintro c i a s' _ t' _ hI _ rfl hst
    have hle := le_of_eq_sum (g := fun _ (t : StopThread ω H) => t.readsWorkers.toNat) hI i
    exact eq_sum_update (g := fun _ (t : StopThread ω H) => t.readsWorkers.toNat) hI
      ((stopStep_trans hst).readers hle)

end Hypertile
