import Hypertile.Pool.Steps
import Mathlib.Tactic.Abel

/-!
# Conservation of tasks

Every handle that was injected is in an injector, in a deque, with a thread in the middle of an
operation, or was returned, and each deque is with one thread until it is drained and dropped. Both
are quantities that the shared state and the threads hold between them (`PoolTrans.deques`,
`PoolTrans.tasks`). A deque that is being drained is in no slot, so nothing is pushed to it and the
loop ends.
-/

namespace Hypertile

open Machine Machine.Threads

variable {κ H : Type} [DecidableEq κ]

/-! ## The deques of a thread -/

/-- The deque in a slot. -/
def Slot.held : Slot → Multiset DequeId
  | some (_, d) => {d}
  | none => 0

/-- The deques of a drain loop: the one it pops, and the new one if it will be installed. -/
def Drain.held (loop : Drain κ) : Multiset DequeId :=
  match loop.after with
  | .install _ worker => {loop.deque, worker}
  | .done => {loop.deque}

namespace PoolPc

/-- The drain loop that a thread is in. -/
def loop : PoolPc κ H → Option (Drain κ)
  | .drain loop => some loop
  | .inject _ _ loop | .push _ _ loop => loop
  | _ => none

/-- The deques that a thread holds outside its slot. -/
def held : PoolPc κ H → Multiset DequeId
  | .drain loop => loop.held
  | .inject _ _ loop | .push _ _ loop => loop.elim 0 Drain.held
  | .takeAny _ _ worker | .install _ _ worker => {worker}
  | _ => 0

/-- The handle that a thread holds. -/
def carried : PoolPc κ H → Multiset H
  | .inject _ task _ | .push _ task _ => {task}
  | _ => 0

/-- The slot must be empty: in a drain loop, and where a deque is about to be installed. -/
def emptied : PoolPc κ H → Bool
  | .drain _ | .install _ _ _ => true
  | .inject _ _ loop | .push _ _ loop => loop.isSome
  | _ => false

omit [DecidableEq κ] in
@[simp] theorem held_afterInject (loop : Option (Drain κ)) :
    (afterInject (H := H) loop).held = loop.elim 0 Drain.held := by
  cases loop <;> rfl

omit [DecidableEq κ] in
@[simp] theorem carried_afterInject (loop : Option (Drain κ)) :
    (afterInject (H := H) loop).carried = 0 := by
  cases loop <;> rfl

omit [DecidableEq κ] in
@[simp] theorem emptied_afterInject (loop : Option (Drain κ)) :
    (afterInject (H := H) loop).emptied = loop.isSome := by
  cases loop <;> rfl

omit [DecidableEq κ] in
/-- What follows a drain loop holds the loop's deques without the drained one. -/
theorem held_exit (loop : Drain κ) : {loop.deque} + (loop.exit (H := H)).held = loop.held := by
  unfold Drain.exit Drain.held
  cases loop.after <;> rfl

omit [DecidableEq κ] in
@[simp] theorem carried_exit (loop : Drain κ) : (loop.exit (H := H)).carried = 0 := by
  unfold Drain.exit
  cases loop.after <;> rfl

end PoolPc

/-- The deques that a thread holds. -/
def PoolThread.held (t : PoolThread κ H) : Multiset DequeId := t.slot.held + t.pc.held

/-- The handle that a thread holds. -/
def PoolThread.carried (t : PoolThread κ H) : Multiset H := t.pc.carried

/-- The slot is empty where it must be. -/
def PoolThread.SlotEmptied (t : PoolThread κ H) : Prop := t.pc.emptied = true → t.slot = none

/-- A step empties the slot where it must be empty. -/
theorem PoolTrans.slotEmptied {p p' : Pool κ H} {t t' : PoolThread κ H} {a : PoolLabel κ H}
    (h : PoolTrans p t a p' t') (ht : t.SlotEmptied) : t'.SlotEmptied := by
  cases h with
  | push | injectLocal => exact fun he => ht ((PoolPc.emptied_afterInject _).symm.trans he)
  | drainEnd => exact fun _ => ht rfl
  | takeAny | takeNone | takeLocal => exact fun _ => rfl
  | drain => exact fun _ => ht rfl
  | injectBack => exact fun _ => rfl
  | _ => exact nofun

variable {ι : Type} [DecidableEq ι] {c : PoolConfig κ H ι}
  {G : PoolConfig κ H ι → ι × PoolLabel κ H → Prop}

/-- The slots are empty where they must be, in every state reached. -/
theorem reachable_slotEmptied (h : (poolMachine κ H ι).Reachable G c) (j : ι) :
    (c.loc j).SlotEmptied := by
  refine pool_local (J := fun _ => True) (L := fun _ _ t => t.SlotEmptied) h (fun _ _ => trivial)
    (fun _ => nofun) ?_ ?_ j
  · intro c i a p' t t' _ _ _ hL ht
    exact ht.slotEmptied hL
  · intro c i a p' t t' j _ _ _ _ _ hL
    exact hL

/-! ## Each deque is with one thread -/

/-- A step moves deques between the threads and the dropped ones, or makes one. -/
theorem PoolTrans.deques {p p' : Pool κ H} {t t' : PoolThread κ H} {a : PoolLabel κ H}
    (h : PoolTrans p t a p' t') (ht : t.SlotEmptied) :
    p'.retired + t'.held + Multiset.range p.nextDeque =
      p.retired + t.held + Multiset.range p'.nextDeque := by
  cases h with
  | @install slot k id worker =>
    have hslot : slot = none := ht rfl
    subst hslot
    change p.retired + ({worker} + 0) + _ = p.retired + (0 + {worker}) + _
    rw [add_zero, zero_add]
  | @drainEnd slot loop =>
    change loop.deque ::ₘ p.retired + (slot.held + loop.exit.held) + _ =
      p.retired + (slot.held + loop.held) + _
    rw [← PoolPc.held_exit (H := H) loop, ← Multiset.singleton_add]
    abel
  | @newWorker slot =>
    change p.retired + (slot.held + {p.nextDeque}) + _ =
      p.retired + (slot.held + 0) + Multiset.range (p.nextDeque + 1)
    rw [Multiset.range_succ, ← Multiset.singleton_add]
    abel
  | @takeAny _ _ d worker =>
    change p.retired + (0 + d ::ₘ {worker}) + _ = p.retired + ({d} + {worker}) + _
    rw [← Multiset.singleton_add]
    abel
  | @takeLocal _ d =>
    change p.retired + (0 + {d}) + _ = p.retired + ({d} + 0) + _
    abel
  | fetch hf | fetchNone hf =>
    have hsame := hf.sameWorkers
    simp only [Pool.recordReturned, hsame.retired, hsame.nextDeque]
  | findGot _ hf | findNext _ hf =>
    have hsame := hf.sameWorkers
    simp only [Pool.recordReturned, hsame.retired, hsame.nextDeque]
    rfl
  | injectLocal | push =>
    rw [PoolThread.held, PoolPc.held_afterInject]
    rfl
  | _ => rfl

section
variable [Fintype ι]

/-- Every deque that was made is with one thread or was dropped, once. -/
theorem reachable_deques (h : (poolMachine κ H ι).Reachable G c) :
    total Pool.retired PoolThread.held c = Multiset.range c.shared.nextDeque := by
  refine pool_invariant
    (I := fun c => total Pool.retired PoolThread.held c = Multiset.range c.shared.nextDeque) h
    (fun _ h => reachable_slotEmptied h) ?_ ?_
  · simp [total, PoolThread.held, Pool.new, PoolPc.held, Slot.held]
  · rintro c i a p' _ t' hslot hI _ rfl ht
    have hmove := total_step_transfer (ht.deques (hslot i))
    rw [hI, add_comm] at hmove
    exact add_left_cancel hmove

/-- How often a deque is dropped and held, in all. -/
theorem count_deque (h : (poolMachine κ H ι).Reachable G c) (d : DequeId) :
    total (fun p => p.retired.count d) (fun t => t.held.count d) c =
      (Multiset.range c.shared.nextDeque).count d := by
  have hmap := map_total (Multiset.countAddMonoidHom d) Pool.retired PoolThread.held c
  rw [reachable_deques h] at hmap
  exact hmap.symm

/-- Two threads that hold a deque are one thread. -/
theorem held_unique (h : (poolMachine κ H ι).Reachable G c) {d : DequeId} {i j : ι}
    (hi : d ∈ (c.loc i).held) (hj : d ∈ (c.loc j).held) : i = j := by
  have hone := Multiset.nodup_iff_count_le_one.1 (Multiset.nodup_range c.shared.nextDeque) d
  rw [← count_deque h d] at hone
  exact holder_unique hone (Multiset.count_pos.2 hi) (Multiset.count_pos.2 hj)

/-- A deque that a thread holds was made and is not dropped. -/
theorem held_live (h : (poolMachine κ H ι).Reachable G c) {d : DequeId} {i : ι}
    (hi : d ∈ (c.loc i).held) : d < c.shared.nextDeque ∧ d ∉ c.shared.retired := by
  have hone := Multiset.nodup_iff_count_le_one.1 (Multiset.nodup_range c.shared.nextDeque) d
  have hle := le_total (fun p : Pool κ H => p.retired.count d) (fun t => t.held.count d) c i
  rw [count_deque h d] at hle
  have hpos := Multiset.count_pos.2 hi
  refine ⟨Multiset.mem_range.1 (Multiset.count_pos.1 (by omega)), fun hret => ?_⟩
  have hret' := Multiset.count_pos.2 hret
  omega

end

/-! ## Only the deque in the slot grows -/

namespace Pool

variable {p : Pool κ H} {d d' : DequeId} {slot : Slot} {tasks : List H}

omit [DecidableEq κ] in
@[simp] theorem setDeque_self : (p.setDeque d tasks).deque d = tasks := Function.update_self ..

omit [DecidableEq κ] in
/-- Filling a deque leaves the others. -/
theorem setDeque_of_ne (h : d' ≠ d) : (p.setDeque d tasks).deque d' = p.deque d' :=
  Function.update_of_ne h ..

omit [DecidableEq κ] in
/-- A batch is received in the slot's deque only. -/
theorem receive_of_notMem (h : d ∉ slot.held) : (p.receive slot tasks).deque d = p.deque d := by
  cases slot with
  | none => rfl
  | some owned => exact setDeque_of_ne fun heq => h (by simp [Slot.held, heq])

end Pool

/-- An attempt to get a task lengthens no deque but the slot's. -/
theorem FetchTrans.length_le {p p' : Pool κ H} {slot : Slot} {source : Source κ} {r : Steal H}
    (h : FetchTrans p slot source p' r) {d : DequeId} (hd : d ∉ slot.held) :
    (p'.deque d).length ≤ (p.deque d).length := by
  cases h with
  | nothing => exact le_rfl
  | popped hslot hq =>
    rw [Pool.setDeque_of_ne]
    rintro rfl
    exact hd (by simp [Slot.held, hslot])
  | injector =>
    rw [Pool.receive_of_notMem hd]
    exact le_rfl
  | @stolen d₀ n task rest _ hq =>
    rw [Pool.receive_of_notMem hd]
    by_cases heq : d = d₀
    · subst heq
      rw [Pool.setDeque_self, hq, List.length_drop, List.length_cons]
      omega
    · rw [Pool.setDeque_of_ne heq]

/-- A step lengthens no deque but the one in the slot of its thread. -/
theorem PoolTrans.length_le {p p' : Pool κ H} {t t' : PoolThread κ H} {a : PoolLabel κ H}
    (h : PoolTrans p t a p' t') {d : DequeId} (hd : d ∉ t.slot.held) :
    (p'.deque d).length ≤ (p.deque d).length := by
  cases h with
  | handOffLocal | tryPushLocal =>
    rw [Pool.push, Pool.setDeque_of_ne fun heq => hd (by simp [Slot.held, heq])]
    exact Nat.le_refl _
  | injectLocal => rw [Pool.push, Pool.setDeque_of_ne fun heq => hd (by simp [Slot.held, heq])]
  | fetch hf | fetchNone hf | findGot _ hf | findNext _ hf => exact hf.length_le hd
  | @drain _ loop task rest hq =>
    by_cases heq : d = loop.deque
    · subst heq
      rw [Pool.setDeque_self, hq]
      exact Nat.le_succ _
    · rw [Pool.setDeque_of_ne heq]
  | _ => exact le_rfl

/-- Deques are only ever made. -/
theorem PoolTrans.nextDeque_le {p p' : Pool κ H} {t t' : PoolThread κ H} {a : PoolLabel κ H}
    (h : PoolTrans p t a p' t') : p.nextDeque ≤ p'.nextDeque := by
  cases h with
  | newWorker => exact Nat.le_succ _
  | fetch hf | fetchNone hf | findGot _ hf | findNext _ hf => exact hf.sameWorkers.nextDeque.ge
  | _ => exact Nat.le_refl _

/-- A deque is dropped when it is empty. -/
theorem PoolTrans.retired {p p' : Pool κ H} {t t' : PoolThread κ H} {a : PoolLabel κ H}
    (h : PoolTrans p t a p' t') {d : DequeId} (hd : d ∈ p'.retired) :
    d ∈ p.retired ∨ p'.deque d = [] := by
  cases h with
  | drainEnd hq =>
    rcases Multiset.mem_cons.1 hd with rfl | hd
    · exact .inr hq
    · exact .inl hd
  | fetch hf | fetchNone hf | findGot _ hf | findNext _ hf =>
    exact .inl (hf.sameWorkers.retired ▸ hd)
  | _ => exact .inl hd

/-- A deque with tasks was made and is not dropped. -/
def DequesLive (p : Pool κ H) : Prop :=
  ∀ d, p.deque d ≠ [] → d < p.nextDeque ∧ d ∉ p.retired

section
variable [Fintype ι]

/-- `DequesLive` in every state reached. -/
theorem reachable_dequesLive (h : (poolMachine κ H ι).Reachable G c) : DequesLive c.shared := by
  refine pool_invariant (I := fun c => DequesLive c.shared) (J := (poolMachine κ H ι).Reachable G) h
    (fun _ h => h) (fun _ hd => (hd rfl).elim) ?_
  rintro c i a p' t t' hr hI _ hi ht d hd
  have hlive : d < c.shared.nextDeque ∧ d ∉ c.shared.retired := by
    by_cases hslot : d ∈ t.slot.held
    · refine held_live hr (i := i) ?_
      rw [hi]
      exact Multiset.mem_add.2 (.inl hslot)
    · refine hI d fun hnil => hd ?_
      have hle := ht.length_le hslot
      rw [hnil] at hle
      exact List.eq_nil_of_length_eq_zero (Nat.le_zero.1 hle)
  refine ⟨hlive.1.trans_le ht.nextDeque_le, fun hret => ?_⟩
  rcases ht.retired hret with hret' | hnil
  · exact hlive.2 hret'
  · exact hd hnil

end

/-! ## Each task is in one place -/

/-- The task that an attempt gave. -/
def Steal.tasks : Steal H → Multiset H
  | .success task => {task}
  | _ => 0

section
variable [Fintype κ]

/-- The tasks in the injectors. -/
def Pool.injectors (p : Pool κ H) : Multiset H := ∑ k, ((p.core k).injector : Multiset H)

/-- The tasks in the injectors and in these deques. -/
def Pool.storedIn (p : Pool κ H) (ds : Finset DequeId) : Multiset H :=
  p.injectors + ∑ d ∈ ds, (p.deque d : Multiset H)

/-- The tasks in the injectors and the deques. -/
def Pool.stored (p : Pool κ H) : Multiset H :=
  p.injectors + ∑ d ∈ Finset.range p.nextDeque, (p.deque d : Multiset H)

namespace Pool

variable {p : Pool κ H} {d : DequeId} {ds : Finset DequeId} {k : κ} {slot : Slot} {tasks : List H}

omit [DecidableEq κ] in
/-- What is stored is stored in the deques that were made. -/
theorem stored_eq (p : Pool κ H) : p.stored = p.storedIn (Finset.range p.nextDeque) := rfl

omit [DecidableEq κ] in
/-- Filling a deque anew changes what is stored by what is put there and what was there. -/
theorem storedIn_setDeque (hd : d ∈ ds) (tasks : List H) :
    (p.setDeque d tasks).storedIn ds + (p.deque d : Multiset H) =
      p.storedIn ds + (tasks : Multiset H) := by
  have hsum := sum_update (f := p.deque) hd (fun _ (l : List H) => (l : Multiset H)) tasks
  rw [storedIn, storedIn, add_assoc, add_assoc]
  exact congrArg (p.injectors + ·) hsum

/-- Filling an injector anew does so as well. -/
theorem storedIn_setInjector (p : Pool κ H) (ds : Finset DequeId) (k : κ) (tasks : List H) :
    (p.setInjector k tasks).storedIn ds + ((p.core k).injector : Multiset H) =
      p.storedIn ds + (tasks : Multiset H) := by
  have hsum := sum_update (f := p.core) (Finset.mem_univ k)
    (fun _ e => (e.injector : Multiset H)) { p.core k with injector := tasks }
  rw [storedIn, storedIn, add_right_comm, add_right_comm p.injectors]
  exact congrArg (· + _) hsum

omit [DecidableEq κ] in
/-- A task that is pushed is stored. -/
theorem storedIn_push (hd : d ∈ ds) (task : H) :
    (p.push d task).storedIn ds = p.storedIn ds + {task} := by
  have hset := storedIn_setDeque (p := p) hd (p.deque d ++ [task])
  rw [← Multiset.coe_add, add_comm (p.deque d : Multiset H), ← add_assoc] at hset
  exact add_right_cancel hset

/-- A task that is pushed to an injector is stored. -/
theorem storedIn_pushInjector (task : H) :
    (p.pushInjector k task).storedIn ds = p.storedIn ds + {task} := by
  have hset := p.storedIn_setInjector ds k ((p.core k).injector ++ [task])
  rw [← Multiset.coe_add, add_comm ((p.core k).injector : Multiset H), ← add_assoc] at hset
  exact add_right_cancel hset

omit [DecidableEq κ] in
/-- A batch that is received is stored; without a slot there is none. -/
theorem storedIn_receive (hslot : ∀ d ∈ slot.held, d ∈ ds) (n : ℕ) :
    (p.receive slot (tasks.take (batchSize slot n))).storedIn ds =
      p.storedIn ds + (tasks.take (batchSize slot n) : Multiset H) := by
  cases slot with
  | none => simp [receive, batchSize]
  | some owned =>
    have hd : owned.2 ∈ ds := hslot _ (by simp [Slot.held])
    have hset := storedIn_setDeque (p := p) hd
      (p.deque owned.2 ++ tasks.take (batchSize (some owned) n))
    rw [← Multiset.coe_add, add_comm (p.deque owned.2 : Multiset H), ← add_assoc] at hset
    exact add_right_cancel hset

end Pool

/-- What is stored after a task was taken from a queue and the next ones were moved elsewhere. -/
theorem stored_of_taken {stored stored' : Multiset H} {task : H} {rest : List H} (n : ℕ)
    (h : stored' + ((task :: rest : List H) : Multiset H) =
      stored + (rest.drop n : Multiset H)) :
    stored' + (rest.take n : Multiset H) + {task} = stored := by
  have hrest : (rest : Multiset H) = (rest.take n : Multiset H) + (rest.drop n : Multiset H) := by
    rw [Multiset.coe_add, List.take_append_drop]
  rw [← Multiset.cons_coe, ← Multiset.singleton_add, hrest] at h
  refine add_right_cancel (b := (rest.drop n : Multiset H)) ?_
  rw [← h]
  abel

/-- An attempt to get a task takes it from what is stored, and drops or copies none, in any set of
deques with the one it looks at and the one in the slot. -/
theorem FetchTrans.storedIn {p p' : Pool κ H} {slot : Slot} {source : Source κ} {r : Steal H}
    {ds : Finset DequeId} (h : FetchTrans p slot source p' r) (hslot : ∀ d ∈ slot.held, d ∈ ds)
    (hsource : ∀ d, source = .stealer d → p.deque d ≠ [] → d ∈ ds) :
    p'.storedIn ds + r.tasks = p.storedIn ds := by
  cases h with
  | nothing hr =>
    cases r with
    | success task => exact absurd rfl (hr task)
    | empty | retry => exact add_zero _
  | @popped _ id d task rest hs hq =>
    have hd : d ∈ ds := hslot d (by simp [hs, Slot.held])
    have hset := Pool.storedIn_setDeque (p := p) hd rest
    rw [hq] at hset
    simpa [Steal.tasks] using stored_of_taken 0 hset
  | @injector k n task rest hk =>
    have hset := p.storedIn_setInjector ds k (rest.drop (batchSize slot n))
    rw [hk] at hset
    rw [Pool.storedIn_receive hslot]
    exact stored_of_taken _ hset
  | @stolen d n task rest _ hq =>
    have hset := Pool.storedIn_setDeque (p := p) (hsource d rfl (by simp [hq]))
      (rest.drop (batchSize slot n))
    rw [hq] at hset
    rw [Pool.storedIn_receive hslot]
    exact stored_of_taken _ hset

/-- An attempt to get a task takes it from all that is stored. -/
theorem FetchTrans.stored {p p' : Pool κ H} {slot : Slot} {source : Source κ} {r : Steal H}
    (h : FetchTrans p slot source p' r) (hlive : DequesLive p)
    (hslot : ∀ d ∈ slot.held, d < p.nextDeque) : p'.stored + r.tasks = p.stored := by
  rw [Pool.stored_eq, h.sameWorkers.nextDeque]
  exact h.storedIn (fun d hd => Finset.mem_range.2 (hslot d hd))
    fun d _ hd => Finset.mem_range.2 (hlive d hd).1

/-- The tasks that are stored or were returned. -/
def Pool.accounted (p : Pool κ H) : Multiset H := p.stored + p.returned.map Prod.snd

/-- Changing a core without its injector changes no task. -/
theorem Pool.accounted_setCore {p : Pool κ H} {k : κ} {e : ExecutorCore H}
    (he : e.injector = (p.core k).injector) : (p.setCore k e).accounted = p.accounted := by
  have hinj : ∀ j, ((p.setCore k e).core j).injector = (p.core j).injector := by
    intro j
    by_cases hj : j = k
    · subst hj
      simpa [Pool.setCore] using he
    · simp [Pool.setCore, hj]
  simp only [accounted, stored, injectors, hinj]
  rfl

/-- A task that an attempt gave is returned. -/
theorem FetchTrans.accounted {p p' : Pool κ H} {slot : Slot} {source : Source κ} {task : H}
    (h : FetchTrans p slot source p' (.success task)) (hlive : DequesLive p)
    (hslot : ∀ d ∈ slot.held, d < p.nextDeque) (k : κ) :
    (p'.recordReturned k task).accounted = p.accounted := by
  have hstored : p'.stored + {task} = p.stored := h.stored hlive hslot
  change p'.stored + Multiset.map Prod.snd ((k, task) ::ₘ p'.returned) = _
  rw [Multiset.map_cons, h.sameWorkers.returned, Pool.accounted, ← hstored,
    ← Multiset.singleton_add, add_assoc]

/-- An attempt that gave nothing changes no account. -/
theorem FetchTrans.accounted_none {p p' : Pool κ H} {slot : Slot} {source : Source κ} {r : Steal H}
    (h : FetchTrans p slot source p' r) (hr : ∀ task, r ≠ .success task) (hlive : DequesLive p)
    (hslot : ∀ d ∈ slot.held, d < p.nextDeque) : p'.accounted = p.accounted := by
  have hstored := h.stored hlive hslot
  have hnone : r.tasks = 0 := by
    cases r with
    | success task => exact absurd rfl (hr task)
    | empty | retry => rfl
  rw [hnone, add_zero] at hstored
  rw [Pool.accounted, Pool.accounted, hstored, h.sameWorkers.returned]

omit [DecidableEq κ] in
/-- A new deque has no task. -/
theorem Pool.accounted_newDeque {p : Pool κ H} (k : κ) (id : WorkerId) (hlive : DequesLive p) :
    (p.newDeque k id).2.accounted = p.accounted := by
  have hnil : p.deque p.nextDeque = [] := by
    by_contra hne
    exact absurd (hlive _ hne).1 (Nat.lt_irrefl _)
  change (p.injectors + ∑ d ∈ Finset.range (p.nextDeque + 1), (p.deque d : Multiset H)) + _ = _
  rw [Finset.sum_range_succ, hnil, Multiset.coe_nil, add_zero]
  rfl

/-- A step drops and copies no task. -/
theorem PoolTrans.tasks {p p' : Pool κ H} {t t' : PoolThread κ H} {a : PoolLabel κ H}
    (h : PoolTrans p t a p' t') (hlive : DequesLive p)
    (hslot : ∀ d ∈ t.slot.held, d < p.nextDeque) :
    p'.accounted + t'.carried + p.injected = p.accounted + t.carried + p'.injected := by
  cases h with
  | @inject _ _ task | @handOff _ task =>
    change p.accounted + {task} + p.injected = p.accounted + 0 + (task ::ₘ p.injected)
    rw [← Multiset.singleton_add]
    abel
  | @handOffLocal _ d _ task | @tryPushLocal _ d task =>
    have hpush : ((p.recordInjected task).push d task).stored = _ :=
      Pool.storedIn_push (Finset.mem_range.2 (hslot d (by simp [Slot.held]))) task
    change ((p.recordInjected task).push d task).stored + p.returned.map Prod.snd + 0 + p.injected =
      p.stored + p.returned.map Prod.snd + 0 + (task ::ₘ p.injected)
    rw [hpush, ← Multiset.singleton_add]
    change p.stored + {task} + _ + _ + _ = _
    abel
  | @fetch _ _ _ _ q _ hf =>
    have hsame : q.injected = p.injected := hf.sameWorkers.injected
    change _ + 0 + _ = _ + 0 + q.injected
    rw [hf.accounted hlive hslot, hsame]
  | @findGot _ _ _ _ _ q _ _ hf =>
    have hsame : q.injected = p.injected := hf.sameWorkers.injected
    change _ + 0 + _ = _ + 0 + q.injected
    rw [hf.accounted hlive hslot, hsame]
  | fetchNone hf hr => rw [hf.accounted_none hr hlive hslot, hf.sameWorkers.injected]
  | findNext _ hf hr =>
    rw [hf.accounted_none hr hlive hslot, hf.sameWorkers.injected]
    rfl
  | @injectLocal _ d _ task loop =>
    change (p.push d task).stored + p.returned.map Prod.snd + (afterInject loop).carried +
      p.injected = p.stored + p.returned.map Prod.snd + {task} + p.injected
    have hpush : (p.push d task).stored = p.stored + {task} :=
      Pool.storedIn_push (Finset.mem_range.2 (hslot d (by simp [Slot.held]))) task
    rw [hpush, PoolPc.carried_afterInject]
    abel
  | @push _ k task loop =>
    change (p.pushInjector k task).stored + p.returned.map Prod.snd + (afterInject loop).carried +
      p.injected = p.stored + p.returned.map Prod.snd + {task} + p.injected
    have hpush : (p.pushInjector k task).stored = p.stored + {task} :=
      Pool.storedIn_pushInjector task
    rw [hpush, PoolPc.carried_afterInject]
    abel
  | @drain _ loop task rest hq =>
    have hmade := (hlive loop.deque (by simp [hq])).1
    have hset : (p.setDeque loop.deque rest).stored + (p.deque loop.deque : Multiset H) =
        p.stored + (rest : Multiset H) := Pool.storedIn_setDeque (Finset.mem_range.2 hmade) rest
    rw [hq] at hset
    have hstored : (p.setDeque loop.deque rest).stored + {task} = p.stored := by
      simpa using stored_of_taken 0 hset
    change (p.setDeque loop.deque rest).stored + p.returned.map Prod.snd + {task} + p.injected =
      p.stored + p.returned.map Prod.snd + 0 + p.injected
    rw [← hstored]
    abel
  | drainEnd =>
    rw [PoolThread.carried, PoolPc.carried_exit]
    rfl
  | @newWorker _ k =>
    have hcore : (p.setRegistry k (p.core k).registry.allocateId.2).accounted = p.accounted :=
      Pool.accounted_setCore rfl
    have hnew := Pool.accounted_newDeque (p := p.setRegistry k (p.core k).registry.allocateId.2) k
      (p.core k).registry.nextId hlive
    rw [hnew, hcore]
    rfl
  | @dropGuard _ g =>
    have hcore : (p.setRegistry g.core ((p.core g.core).registry.deregister g.id)).accounted =
        p.accounted := Pool.accounted_setCore rfl
    change (p.setRegistry g.core _).accounted + 0 + _ = _
    rw [hcore]
    rfl
  | @register _ k id worker =>
    have hcore : (p.setRegistry k ((p.core k).registry.register ⟨id, worker⟩)).accounted =
        p.accounted := Pool.accounted_setCore rfl
    change (p.setRegistry k _).accounted + 0 + _ = _
    rw [hcore]
    rfl
  | @shutdown _ k =>
    have hcore : (p.setCore k { p.core k with running := false }).accounted = p.accounted :=
      Pool.accounted_setCore rfl
    rw [hcore]
    rfl
  | _ => rfl

variable [Fintype ι]

/-- Every task that was injected is stored, with a thread, or was returned. -/
theorem reachable_tasks (h : (poolMachine κ H ι).Reachable G c) :
    total Pool.accounted PoolThread.carried c = c.shared.injected := by
  refine pool_invariant
    (I := fun c => total Pool.accounted PoolThread.carried c = c.shared.injected)
    (J := (poolMachine κ H ι).Reachable G) h (fun _ h => h) ?_ ?_
  · simp [total, Pool.accounted, Pool.stored, Pool.injectors, Pool.new, PoolThread.carried,
      PoolPc.carried]
  · rintro c i a p' _ t' hr hI _ rfl ht
    have hslot : ∀ d ∈ (c.loc i).slot.held, d < c.shared.nextDeque := fun d hd =>
      (held_live hr (Multiset.mem_add.2 (.inl hd))).1
    have hmove := total_step_transfer (ht.tasks (reachable_dequesLive hr) hslot)
    rw [hI, add_comm] at hmove
    exact add_left_cancel hmove

/-! ## The drain loops end -/

omit [DecidableEq κ] [Fintype κ] [DecidableEq ι] [Fintype ι] in
/-- A thread holds the deque that it drains. -/
theorem PoolThread.loop_mem_held {t : PoolThread κ H} {loop : Drain κ}
    (h : t.pc.loop = some loop) : loop.deque ∈ t.held := by
  obtain ⟨slot, pc⟩ := t
  refine Multiset.mem_add.2 (.inr ?_)
  have hmem : loop.deque ∈ loop.held := by
    unfold Drain.held
    cases loop.after <;> simp
  cases pc with
  | drain => cases h; exact hmem
  | inject _ _ l | push _ _ l =>
    have hl : l = some loop := h
    subst hl
    exact hmem
  | _ => cases h

omit [DecidableEq κ] [Fintype κ] [DecidableEq ι] [Fintype ι] in
/-- A thread in a drain loop has its slot emptied. -/
theorem PoolThread.SlotEmptied.of_loop {t : PoolThread κ H} {loop : Drain κ} (h : t.SlotEmptied)
    (hloop : t.pc.loop = some loop) : t.slot = none := by
  obtain ⟨slot, pc⟩ := t
  refine h ?_
  cases pc with
  | drain => rfl
  | inject _ _ l | push _ _ l =>
    have hl : l = some loop := hloop
    subst hl
    rfl
  | _ => cases hloop

omit [Fintype κ] in
/-- A deque that is being drained is in no slot. -/
theorem drained_notMem_slot (h : (poolMachine κ H ι).Reachable G c) {i : ι} {loop : Drain κ}
    (hloop : (c.loc i).pc.loop = some loop) (j : ι) : loop.deque ∉ (c.loc j).slot.held := by
  intro hmem
  have hij := held_unique h (PoolThread.loop_mem_held hloop) (Multiset.mem_add.2 (.inl hmem))
  subst hij
  rw [(reachable_slotEmptied h i).of_loop hloop] at hmem
  exact Multiset.notMem_zero _ hmem

omit [DecidableEq κ] [Fintype κ] [DecidableEq ι] [Fintype ι] in
/-- After `inject` the loop that called it goes on. -/
@[simp] theorem PoolPc.loop_afterInject (loop : Option (Drain κ)) :
    (afterInject (H := H) loop).loop = loop := by
  cases loop <;> rfl

omit [DecidableEq κ] [Fintype κ] [DecidableEq ι] [Fintype ι] in
/-- After a drain loop there is none. -/
@[simp] theorem PoolPc.loop_exit (loop : Drain κ) : (loop.exit (H := H)).loop = none := by
  unfold Drain.exit
  cases loop.after <;> rfl

omit [Fintype κ] in
/-- A deque that is being drained has no more tasks than the loop has left to pop. -/
theorem reachable_left (h : (poolMachine κ H ι).Reachable G c) (j : ι) :
    ∀ loop, (c.loc j).pc.loop = some loop → (c.shared.deque loop.deque).length ≤ loop.left := by
  refine pool_local (J := (poolMachine κ H ι).Reachable G)
    (L := fun _ p t => ∀ loop, t.pc.loop = some loop → (p.deque loop.deque).length ≤ loop.left) h
    (fun _ h => h) (fun _ => nofun) ?_ ?_ j
  · intro c i a p' t t' hr _ hi hL ht loop hloop
    have hslot := hi ▸ reachable_slotEmptied hr i
    cases ht with
    | injectLocal =>
      rw [PoolPc.loop_afterInject] at hloop
      have hnone := hslot.of_loop hloop
      cases hnone
    | injectBack => exact hL loop hloop
    | push =>
      rw [PoolPc.loop_afterInject] at hloop
      exact hL loop hloop
    | takeAny | takeLocal =>
      cases hloop
      exact Nat.le_refl _
    | @drain _ loop₀ task rest hq =>
      cases hloop
      have hle := hL loop₀ rfl
      rw [hq, List.length_cons] at hle
      rw [Pool.setDeque_self]
      exact Nat.le_sub_one_of_lt hle
    | drainEnd =>
      rw [PoolPc.loop_exit] at hloop
      cases hloop
    | _ => cases hloop
  · intro c i a p' t t' j hr _ hi hj ht hL loop hloop
    have hslot := hi ▸ drained_notMem_slot hr hloop i
    exact (ht.length_le hslot).trans (hL loop hloop)

/-- The steps that a thread has left in its drain loop, at most. -/
def PoolPc.stepsLeft : PoolPc κ H → ℕ
  | .drain loop => 3 * loop.left + 1
  | .push _ _ (some loop) => 3 * loop.left + 2
  | .inject _ _ (some loop) => 3 * loop.left + 3
  | _ => 0

omit [Fintype κ] [DecidableEq ι] [Fintype ι] in
/-- A step within a drain loop lowers the steps that are left. -/
theorem PoolTrans.stepsLeft {p p' : Pool κ H} {t t' : PoolThread κ H} {a : PoolLabel κ H}
    (h : PoolTrans p t a p' t') (hslot : t.SlotEmptied) (hloop : t.pc.loop.isSome = true)
    (hleft : ∀ loop, t.pc.loop = some loop → (p.deque loop.deque).length ≤ loop.left)
    (hloop' : t'.pc.loop.isSome = true) : t'.pc.stepsLeft < t.pc.stepsLeft := by
  obtain ⟨loop, hl⟩ := Option.isSome_iff_exists.1 hloop
  cases h with
  | injectLocal =>
    have hnone := hslot.of_loop hl
    cases hnone
  | injectBack =>
    cases hl
    exact Nat.lt_succ_self _
  | push =>
    cases hl
    exact Nat.lt_succ_self _
  | @drain _ loop₀ task rest hq =>
    have hle := hleft loop₀ rfl
    rw [hq, List.length_cons] at hle
    simp only [PoolPc.stepsLeft]
    omega
  | drainEnd =>
    rw [PoolPc.loop_exit] at hloop'
    cases hloop'
  | _ => cases hl

omit [DecidableEq κ] [Fintype κ] [DecidableEq ι] [Fintype ι] in
/-- The steps that are left, for what the loop has left to pop. -/
theorem PoolPc.stepsLeft_le {pc : PoolPc κ H} {loop : Drain κ} (h : pc.loop = some loop) :
    pc.stepsLeft ≤ 3 * loop.left + 3 := by
  cases pc with
  | drain | push | inject =>
    cases h
    simp [PoolPc.stepsLeft]
  | _ => cases h

omit [Fintype κ] [DecidableEq ι] [Fintype ι] in
/-- A thread in a drain loop is never stuck. -/
theorem PoolThread.isSome_of_loop {p : Pool κ H} {t : PoolThread κ H} {loop : Drain κ}
    (h : t.pc.loop = some loop) : (poolStep p t .go).isSome = true := by
  obtain ⟨slot, pc⟩ := t
  cases pc with
  | drain | push | inject => rfl
  | _ => cases h

/-! ## The result -/

/-- The tasks in a collection of deques. -/
def Pool.tasksIn (p : Pool κ H) : Multiset DequeId →+ Multiset H :=
  Multiset.sumAddMonoidHom.comp (Multiset.mapAddMonoidHom fun d => (p.deque d : Multiset H))

/-- The tasks in the local deque of a thread. -/
def Slot.tasks (slot : Slot) (p : Pool κ H) : Multiset H := p.tasksIn slot.held

/-- The tasks that a thread has: in its deques, and in its hands in the middle of an operation. -/
def PoolThread.tasks (t : PoolThread κ H) (p : Pool κ H) : Multiset H :=
  p.tasksIn t.held + t.carried

omit [Fintype κ] in
/-- The tasks in the deques are those in the deques of the threads. -/
theorem deques_by_thread (h : (poolMachine κ H ι).Reachable G c) :
    ∑ d ∈ Finset.range c.shared.nextDeque, (c.shared.deque d : Multiset H) =
      ∑ i, c.shared.tasksIn (c.loc i).held := by
  have hlive := reachable_dequesLive h
  have hmap := map_total c.shared.tasksIn Pool.retired PoolThread.held c
  have hdropped : c.shared.tasksIn c.shared.retired = 0 := by
    refine Multiset.sum_eq_zero fun l hl => ?_
    obtain ⟨d, hd, rfl⟩ := Multiset.mem_map.1 hl
    by_contra hne
    exact (hlive d fun hnil => hne (by rw [hnil]; rfl)).2 hd
  rw [reachable_deques h, total, hdropped, zero_add] at hmap
  exact hmap

/-- No task is lost or duplicated, under every interleaving of the operations on the queues of any
number of cores. The tasks in the injectors, those of the threads and those returned for execution
are those that were injected; where no thread is in the middle of an operation, the tasks of the
threads are those in the local deques. A deque that is being drained is in no slot, so that no step
of any thread pushes to it, and the loop ends: a thread in it is never stuck, and a run all along
which it is in a drain loop has at most three of its steps for each task that the deque had left,
and three more. -/
theorem tasks_conserved (h : (poolMachine κ H ι).Reachable anyStep c) :
    c.shared.injectors + ∑ i, (c.loc i).tasks c.shared + c.shared.returned.map Prod.snd =
      c.shared.injected ∧
    ((∀ i, (c.loc i).pc = .idle) →
      c.shared.injectors + ∑ i, (c.loc i).slot.tasks c.shared + c.shared.returned.map Prod.snd =
        c.shared.injected) ∧
    ∀ i loop, (c.loc i).pc.loop = some loop →
      (∀ j a p' t', poolStep c.shared (c.loc j) a = some (p', t') →
        (p'.deque loop.deque).length ≤ (c.shared.deque loop.deque).length) ∧
      (poolStep c.shared (c.loc i) .go).isSome = true ∧
      ∀ as c', (poolMachine κ H ι).run c as = some c' →
        (poolMachine κ H ι).AllStates (fun c => (c.loc i).pc.loop.isSome = true) c as →
        moves i as ≤ 3 * loop.left + 3 := by
  have htasks : c.shared.injectors + ∑ i, (c.loc i).tasks c.shared +
      c.shared.returned.map Prod.snd = c.shared.injected := by
    rw [← reachable_tasks h, total, Pool.accounted, Pool.stored, deques_by_thread h]
    simp only [PoolThread.tasks, Finset.sum_add_distrib]
    abel
  refine ⟨htasks, fun hidle => ?_, fun i loop hloop => ⟨?_, ?_, ?_⟩⟩
  · rw [← htasks]
    have hthread : ∀ i, (c.loc i).slot.tasks c.shared = (c.loc i).tasks c.shared := by
      intro i
      rw [PoolThread.tasks, PoolThread.held, PoolThread.carried, hidle i]
      change c.shared.tasksIn _ = c.shared.tasksIn (_ + 0) + 0
      rw [add_zero, add_zero]
    simp only [hthread]
  · intro j a p' t' hst
    exact (poolStep_trans hst).length_le (drained_notMem_slot h hloop j)
  · exact PoolThread.isSome_of_loop hloop
  · intro as c' hrun hall
    have hmoves := moves_le (I := (poolMachine κ H ι).Reachable anyStep)
      (fun t => t.pc.loop.isSome) (fun t => t.pc.stepsLeft) i
      (fun _ _ _ hr hst => .tail hr trivial hst)
      (fun c a p' t' hr hb hst hb' => (poolStep_trans hst).stepsLeft (reachable_slotEmptied hr i) hb
        (reachable_left hr i) hb') as h hrun hall
    exact hmoves.trans (PoolPc.stepsLeft_le hloop)

/-- A thread that registers twice, with two tasks in its first deque, while another takes one that
was injected. -/
def nestedRun : List (Bool × PoolLabel Unit ℕ) :=
  [(false, .newWorker ()), (false, .go), (false, .go), (false, .go), (false, .handOff () 7),
    (false, .handOff () 8), (true, .inject () 9), (true, .go), (true, .go),
    (true, .fetch () (.injector ()) (.batch 0)), (false, .newWorker ()), (false, .go),
    (false, .go), (false, .go), (false, .go)]

/-- In that run the drain loop has moved the first of the two tasks to the injector. -/
theorem tasks_conserved_nested :
    ∃ c, (poolMachine Unit ℕ Bool).run (poolMachine Unit ℕ Bool).init nestedRun =
        some c ∧
      (c.shared.core ()).injector = [7] ∧ (c.loc false).pc = .drain ⟨(), 0, 1, .install 2 1⟩ ∧
      c.shared.injectors + ∑ i, (c.loc i).tasks c.shared + c.shared.returned.map Prod.snd =
        c.shared.injected :=
  ⟨_, rfl, rfl, rfl, (tasks_conserved (Machine.reach_of_run nestedRun rfl)).1⟩

end

end Hypertile
