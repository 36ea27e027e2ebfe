import Hypertile.Park.Measure

/-!
# The pool comes to rest

Where no new task is spawned or injected, the threads of a pool cannot take steps of their own for
ever, though the workers loop: each step runs a task to its end or uses up a wake-up
(`ParkThread.owed`), or brings a worker closer to a task or to `park` (`LoopPc.rank`), or shortens a
search. And when no thread can go on every queue is empty, every worker is parked, and no call of a
producer is under way (`pool_comes_to_rest`). The timeout of the park plays no part in that: a
worker that parks has found its own deque empty, and what is injected later is not missed.
-/

namespace Hypertile

open Machine Machine.Threads

variable {ω π H : Type}

/-! ## Measures -/

/-- The tasks that a worker has taken and not run to their end. -/
def LoopPc.tasks : LoopPc ω H → ℕ
  | .run .. | .unmark (some _) | .unmarkCount _ (some _) => 1
  | _ => 0

/-- How far a worker is from running a task, or else from `park`. -/
def LoopPc.rank : LoopPc ω H → ℕ
  | .register => 204
  | .drain _ => 203
  | .unmark none => 202
  | .unmarkCount _ none => 201
  | .top => 200
  | .find pc => 90 + pc.phase
  | .spin n => 14 + 2 * (32 - n)
  | .spinInjector n => 15 + 2 * (31 - n)
  | .mark => 13
  | .markCount => 12
  | .recheck => 11
  | .park => 10
  | .unmark (some _) => 2
  | .unmarkCount _ (some _) => 1
  | .run .. => 0

/-- The attempts that a worker has left at its peers. -/
def LoopPc.width : LoopPc ω H → ℕ
  | .find pc => pc.width
  | _ => 0

/-- The task that a producer is about to push, and the wake-up that its call can lead to. -/
def ProducerPc.owed : ProducerPc ω H → ℕ
  | .idle => 0
  | .push _ => 2
  | _ => 1

namespace ParkThread

/-- The tasks and wake-ups that a thread holds. -/
def owed : ParkThread ω H → ℕ
  | .worker _ pc => pc.tasks
  | .producer pc => pc.owed

/-- How far a worker is from running a task, or else from `park`. -/
def rank : ParkThread ω H → ℕ
  | .worker _ pc => pc.rank
  | .producer _ => 0

/-- The attempts that a worker has left at its peers. -/
def width : ParkThread ω H → ℕ
  | .worker _ pc => pc.width
  | .producer _ => 0

/-- What a search of a producer has still to do, up to the stack. -/
def small : ParkThread ω H → ℕ
  | .worker .. => 0
  | .producer pc => pc.small

end ParkThread

section
variable [Fintype ω]

/-- The tasks that are queued. -/
def Parking.tasks (s : Parking ω H) : ℕ := s.injector.length + ∑ w, (s.deque w).length

/-- The unpark tokens. -/
def Parking.tokens (s : Parking ω H) : ℕ := ∑ w, (s.token w).toNat

/-- The measure of a configuration. -/
def parkMeasure [Fintype π] [DecidableEq ω] [DecidableEq π] (c : ParkConfig ω H π) :
    ℕ × ℕ × ℕ × ℕ :=
  (c.shared.tasks + c.shared.tokens + ∑ i, (c.loc i).owed, ∑ i, (c.loc i).rank,
    ∑ i, (c.loc i).width, 3 * c.shared.idleStack.length + ∑ i, (c.loc i).small)

end

/-! ## What a worker takes -/

/-- What an attempt has got. -/
def Steal.got : Steal H → ℕ
  | .success _ => 1
  | _ => 0

/-- A task that a step runs to its end. -/
def ParkLabel.finishes : ParkLabel H → ℕ
  | .finish => 1
  | _ => 0

/-- A task that a step spawns. -/
def ParkLabel.spawns : ParkLabel H → ℕ
  | .spawn _ => 1
  | _ => 0

variable [DecidableEq ω] [Fintype ω]

/-- From `s` to `s'` worker `w` has taken `got` tasks out of the queues; it has put none into the
deques of others. -/
structure Took (w : ω) (s s' : Parking ω H) (got : ℕ) : Prop where
  tasks : s'.tasks + got = s.tasks
  others : ∀ v, v ≠ w → s.deque v = [] → s'.deque v = []

section
variable {s s' : Parking ω H} {w peer : ω} {ch : Choice} {r : Steal H}

omit [DecidableEq ω] in
/-- Nothing is taken. -/
theorem Took.refl (w : ω) (s : Parking ω H) : Took w s s 0 := ⟨rfl, fun _ _ h => h⟩

/-- How the queued tasks change with one deque. -/
theorem Parking.tasks_setDeque (s : Parking ω H) (w : ω) (tasks : List H) :
    (s.setDeque w tasks).tasks + (s.deque w).length = s.tasks + tasks.length := by
  have hsum := sum_update (Finset.mem_univ w) (fun _ => List.length) s.deque tasks
  simp only [Parking.tasks, Parking.setDeque]
  omega

/-- A steal from the injector. -/
theorem took_stealInjector (h : s.stealInjector w ch = some (s', r)) : Took w s s' r.got := by
  cases ch with
  | retry => cases h
  | batch n =>
    simp only [Parking.stealInjector, Option.some.injEq] at h
    split at h
    · cases h
      exact .refl w s
    · next task rest hinj =>
      cases h
      refine ⟨?_, fun v hv hnil => ?_⟩
      · have hset := ({ s with injector := rest.drop n } : Parking ω H).tasks_setDeque w
          (s.deque w ++ rest.take n)
        simp only [Parking.tasks, Steal.got, hinj, List.length_append, List.length_cons,
          List.length_drop, List.length_take] at hset ⊢
        omega
      · simpa [Parking.setDeque, Function.update_of_ne hv] using hnil

/-- A pop of the local deque. -/
theorem took_localPop (h : s.localPop w = (s', r)) : Took w s s' r.got := by
  unfold Parking.localPop at h
  split at h
  · cases h
    exact .refl w s
  · next task rest hdeque =>
    cases h
    refine ⟨?_, fun v hv hnil => ?_⟩
    · have hset := s.tasks_setDeque w rest
      rw [hdeque, List.length_cons] at hset
      simp only [Steal.got]
      omega
    · simpa [Parking.setDeque, Function.update_of_ne hv] using hnil

/-- A steal from a peer. -/
theorem took_stealPeer (hpeer : peer ≠ w) (h : s.stealPeer w peer ch = (s', r)) :
    Took w s s' r.got := by
  cases ch with
  | retry =>
    cases h
    exact .refl w s
  | batch n =>
    simp only [Parking.stealPeer] at h
    split at h
    · cases h
      exact .refl w s
    · next task rest hdeque =>
      cases h
      have hown : (s.setDeque peer (rest.drop n)).deque w = s.deque w :=
        Function.update_of_ne hpeer.symm ..
      refine ⟨?_, fun v hv hnil => ?_⟩
      · have hpeer' := s.tasks_setDeque peer (rest.drop n)
        have hset := (s.setDeque peer (rest.drop n)).tasks_setDeque w (s.deque w ++ rest.take n)
        simp only [hdeque, hown, Steal.got, List.length_append, List.length_cons, List.length_drop,
          List.length_take] at hpeer' hset ⊢
        omega
      · by_cases hvp : v = peer
        · subst hvp
          rw [hdeque] at hnil
          cases hnil
        · simpa [Parking.setDeque, Function.update_of_ne hv, Function.update_of_ne hvp] using hnil

/-- An attempt of `find_task`, where the worker does not try again at itself. -/
theorem took_attempt {pc : FindPc ω} (hagain : ∀ p rest, pc = .peerAgain p rest → p ≠ w)
    (h : s.attempt w ch pc = some (s', r)) : Took w s s' r.got := by
  cases pc with
  | injectorFirst | injector | injectorAgain => exact took_stealInjector h
  | localDeque => exact took_localPop (Option.some.inj h)
  | stealers => cases h
  | peerAgain p rest => exact took_stealPeer (hagain p rest rfl) (Option.some.inj h)
  | peers rest =>
    cases rest with
    | nil => cases h
    | cons p rest =>
      simp only [Parking.attempt] at h
      split at h
      · cases h
      · next hpeer => exact took_stealPeer hpeer (Option.some.inj h)

omit [Fintype ω] in
/-- A pop that finds nothing finds the deque empty. -/
theorem deque_of_localPop (h : s.localPop w = (s', .empty)) : s.deque w = [] := by
  unfold Parking.localPop at h
  split at h
  · next hnil => exact hnil
  · cases h

omit [Fintype ω] in
/-- An attempt at a peer is at another worker. -/
theorem peer_ne_of_attempt {rest : List ω}
    (h : s.attempt w ch (.peers (peer :: rest)) = some (s', r)) : peer ≠ w := by
  rintro rfl
  simp [Parking.attempt] at h

end

/-! ## What a step of a worker does to the queues -/

/-- The worker has found its own deque empty, and has taken no task since. -/
def LoopPc.searched : LoopPc ω H → Bool
  | .find .injectorFirst | .find .localDeque => false
  | .find _ | .spin _ | .spinInjector _ | .mark | .markCount | .recheck | .park => true
  | _ => false

/-- The worker does not try again at itself. -/
def LoopPc.PeerOk (w : ω) : LoopPc ω H → Prop
  | .find (.peerAgain peer _) => peer ≠ w
  | _ => True

/-- A step of worker `w` moves tasks and loses none; a worker that has searched its own deque has
left it empty, and the deques of others are not filled. -/
structure Moves (w : ω) (s s' : Parking ω H) (pc pc' : LoopPc ω H) (a : ParkLabel H) : Prop where
  tasks : s'.tasks + pc'.tasks + a.finishes = s.tasks + pc.tasks + a.spawns
  others : ∀ v, v ≠ w → s.deque v = [] → s'.deque v = []
  searched : pc'.searched = true → (pc.searched = true → s.deque w = []) → s'.deque w = []
  peerOk : pc'.PeerOk w

section
variable {s s' : Parking ω H} {w : ω} {pc pc' : LoopPc ω H} {a : ParkLabel H}

omit [DecidableEq ω] in
/-- A step that gets a task. -/
theorem Moves.got (h : Took w s s' 1) (hpc : pc.tasks = 0) (hpc' : pc'.tasks = 1)
    (hsearched : pc'.searched = false) (hok : pc'.PeerOk w) (hfinishes : a.finishes = 0)
    (hspawns : a.spawns = 0) : Moves w s s' pc pc' a where
  tasks := by
    have := h.tasks
    omega
  others := h.others
  searched hs := absurd hs (by simp [hsearched])
  peerOk := hok

omit [DecidableEq ω] in
/-- A step that takes no task, and leaves the queues as they are. -/
theorem Moves.none (hinj : s'.injector = s.injector) (hdeque : s'.deque = s.deque)
    (htasks : pc'.tasks + a.finishes = pc.tasks) (hspawns : a.spawns = 0)
    (hsearched : pc'.searched = false ∨ pc.searched = true ∨ s.deque w = []) (hok : pc'.PeerOk w) :
    Moves w s s' pc pc' a where
  tasks := by
    simp only [Parking.tasks, hinj, hdeque]
    omega
  others v _ hnil := by rw [hdeque, hnil]
  searched hs hpc := by
    rw [hdeque]
    rcases hsearched with hno | hbefore | hnil
    · rw [hno] at hs
      cases hs
    · exact hpc hbefore
    · exact hnil
  peerOk := hok

/-- An attempt of `find_task` that gets no task. -/
theorem Moves.find {fpc fpc' : FindPc ω} {ch : Choice} {r : Steal H}
    (h : s.attempt w ch fpc = some (s, r)) (hr : r = .empty ∨ r = .retry)
    (hnext : FindNext fpc fpc') : Moves w s s (.find fpc) (.find fpc') (.attempt ch) := by
  refine .none rfl rfl rfl rfl ?_ ?_
  · cases hnext with
    | injectorFirst => exact .inl rfl
    | localDeque =>
      refine .inr (.inr ?_)
      have hpop := Option.some.inj h
      rcases Parking.localPop_cases hpop with ⟨task, inj, deq, rfl, -⟩ | ⟨rfl, -⟩
      · rcases hr with hr | hr <;> cases hr
      · exact deque_of_localPop hpop
    | _ => exact .inr (.inl rfl)
  · cases hnext with
    | retry => exact peer_ne_of_attempt h
    | _ => trivial

/-- Every step of `run_loop` from a place other than its head moves tasks and loses none. -/
theorem loopStep_moves (hok : pc.PeerOk w) (h : loopStep s w pc a = some (s', pc')) :
    Moves w s s' pc pc' a := by
  unfold loopStep at h
  split at h
  · cases h; exact .none rfl rfl rfl rfl (.inl rfl) trivial
  · -- an attempt of `find_task`
    next fpc ch =>
    obtain ⟨⟨q, r⟩, hr, he⟩ := Option.map_eq_some_iff.1 h
    have htook := took_attempt (fun p rest hp => (by subst hp; exact hok)) hr
    rcases attempt_cases hr with ⟨task, inj, deq, rfl, -⟩ | ⟨rfl, rfl, hn⟩ | ⟨rfl, rfl, hn⟩
    · cases he; exact .got htook rfl rfl rfl trivial rfl rfl
    · cases he; exact .find hr (.inl rfl) hn
    · cases he; exact .find hr (.inr rfl) hn
  · cases h
    split
    · exact .none rfl rfl rfl rfl (.inr (.inl rfl)) trivial
    · exact .none rfl rfl rfl rfl (.inr (.inl rfl)) trivial
  · cases h; exact .none rfl rfl rfl rfl (.inr (.inl rfl)) trivial
  · split at h
    · cases h; exact .none rfl rfl rfl rfl (.inr (.inl rfl)) trivial
    · cases h
  · -- the task that is run spawns a task
    next task next new =>
    cases h
    refine ⟨?_, fun v hv hnil => ?_, fun hs => (by cases hs), trivial⟩
    · have hset := s.tasks_setDeque w (s.deque w ++ [new])
      simp only [List.length_append, List.length_singleton] at hset
      simp only [LoopPc.tasks, ParkLabel.finishes, ParkLabel.spawns]
      omega
    · simpa [Parking.setDeque, Function.update_of_ne hv] using hnil
  · next next =>
    cases h
    cases next <;> exact .none rfl rfl rfl rfl (.inl rfl) trivial
  · -- the drain of the local deque
    split at h
    · cases hr : s.localPop w with
      | mk q r =>
        have htook := took_localPop hr
        rw [hr] at h
        rcases Parking.localPop_cases hr with ⟨task, inj, deq, rfl, -⟩ | ⟨rfl, rfl⟩
        · cases h; exact .got htook rfl rfl rfl trivial rfl rfl
        · cases h; exact .none rfl rfl rfl rfl (.inl rfl) trivial
    · cases h; exact .none rfl rfl rfl rfl (.inl rfl) trivial
  · -- the spin loop
    split at h
    · cases hr : s.localPop w with
      | mk q r =>
        have htook := took_localPop hr
        rw [hr] at h
        rcases Parking.localPop_cases hr with ⟨task, inj, deq, rfl, -⟩ | ⟨rfl, rfl⟩
        · cases h; exact .got htook rfl rfl rfl trivial rfl rfl
        · cases h; exact .none rfl rfl rfl rfl (.inr (.inl rfl)) trivial
    · cases h; exact .none rfl rfl rfl rfl (.inr (.inl rfl)) trivial
  · obtain ⟨⟨q, r⟩, hr, he⟩ := Option.map_eq_some_iff.1 h
    have htook := took_stealInjector hr
    rcases Parking.stealInjector_cases hr with ⟨task, inj, deq, rfl, -⟩ | ⟨rfl, rfl⟩
    · cases he; exact .got htook rfl rfl rfl trivial rfl rfl
    · cases he; exact .none rfl rfl rfl rfl (.inr (.inl rfl)) trivial
  · split at h
    · cases h
    · simp only [Parking.markIdle] at h
      split at h
      · cases h; exact .none rfl rfl rfl rfl (.inr (.inl rfl)) trivial
      · cases h; exact .none rfl rfl rfl rfl (.inr (.inl rfl)) trivial
  · cases h; exact .none rfl rfl rfl rfl (.inr (.inl rfl)) trivial
  · -- the second look at the injector
    obtain ⟨⟨q, r⟩, hr, he⟩ := Option.map_eq_some_iff.1 h
    have htook := took_stealInjector hr
    rcases Parking.stealInjector_cases hr with ⟨task, inj, deq, rfl, -⟩ | ⟨rfl, rfl⟩
    · cases he; exact .got htook rfl rfl rfl trivial rfl rfl
    · cases he; exact .none rfl rfl rfl rfl (.inr (.inl rfl)) trivial
  · split at h
    · cases h; exact .none rfl rfl rfl rfl (.inl rfl) trivial
    · cases h
  · next task =>
    split at h
    · cases h
    · simp only [Parking.unmarkIdle] at h
      split at h
      · cases h; cases task <;> exact .none rfl rfl rfl rfl (.inl rfl) trivial
      · cases h; cases task <;> exact .none rfl rfl rfl rfl (.inl rfl) trivial
  · next removed task =>
    cases h
    cases task <;> exact .none rfl rfl rfl rfl (.inl rfl) trivial
  · cases h

end

/-! ## How far a step brings a worker -/

section
variable {s s' : Parking ω H} {w : ω} {pc pc' : LoopPc ω H} {a : ParkLabel H}

omit [Fintype ω] in
/-- A step of a worker that runs no task to its end and uses up no token brings it closer to a task
or to `park`, or shortens its search. -/
theorem LoopTrans.closer (h : LoopTrans s w pc a s' pc') (hown : a.own = true)
    (hfinish : a.finishes = 0) (hpark : pc ≠ .park) :
    pc'.rank < pc.rank ∨ pc'.rank = pc.rank ∧ pc'.width < pc.width := by
  cases h with
  | findNext hnext =>
    refine hnext.lower.imp (fun hlt => ?_) (fun ⟨heq, hlt⟩ => ⟨?_, hlt⟩)
    · simp only [LoopPc.rank]
      omega
    · simp only [LoopPc.rank, heq]
  | peersSelf => exact .inr ⟨rfl, by simp [LoopPc.width, FindPc.width]⟩
  | spawn => cases hown
  | finish => cases hfinish
  | park => exact absurd rfl hpark
  | @unmark task | @unmarkNone task | @unmarkCount task =>
    cases task <;> exact .inl (by simp [LoopPc.rank, afterUnmark])
  | findGot | start | startNone | peersDone | drainGot | drained | spinGot | spinNone | spun
  | spinInjectorGot | spinInjectorNone =>
    refine .inl ?_
    simp only [LoopPc.rank, FindPc.phase]
    omega
  | register | markAgain | mark | markCount | recheckGot | recheckNone =>
    exact .inl (by simp [LoopPc.rank])

omit [Fintype ω] in
/-- A worker takes no token but its own, when it leaves `park`. -/
theorem LoopTrans.token_cases (h : LoopTrans s w pc a s' pc') :
    s'.token = s.token ∧ pc ≠ .park ∨ pc = .park ∧ a.finishes = 0 ∧ s.token w = true ∧
      s'.token = Function.update s.token w false := by
  cases h with
  | park htoken => exact .inr ⟨rfl, rfl, htoken, rfl⟩
  | _ => exact .inl ⟨rfl, fun hpark => (by cases hpark)⟩

/-- How the tokens change with one of them. -/
theorem Parking.tokens_update (s : Parking ω H) (w : ω) (b : Bool) :
    ({ s with token := Function.update s.token w b } : Parking ω H).tokens + (s.token w).toNat =
      s.tokens + b.toNat :=
  sum_update (Finset.mem_univ w) (fun _ => Bool.toNat) s.token b

end

/-- A step of a thread in `parkMachine`, by what it is a step of. -/
inductive ParkMove (s : Parking ω H) :
    ω ⊕ π → ParkThread ω H → ParkLabel H → Parking ω H → ParkThread ω H → Prop
  | search {w : ω} {n : ℕ} : ParkMove s (.inl w) (.worker n .top) .go s
      (.worker (n + 1) (.find (if n % 64 = 0 then .injectorFirst else .localDeque)))
  | loop {w : ω} {n : ℕ} {pc pc' : LoopPc ω H} {a : ParkLabel H} {s' : Parking ω H}
      (hst : loopStep s w pc a = some (s', pc')) :
      ParkMove s (.inl w) (.worker n pc) a s' (.worker n pc')
  | producer {i : π} {pc pc' : ProducerPc ω H} {a : ParkLabel H} {s' : Parking ω H}
      (hst : producerStep s pc a = some (s', pc')) :
      ParkMove s (.inr i) (.producer pc) a s' (.producer pc')

section
variable {i : ω ⊕ π} {s s' : Parking ω H} {t t' : ParkThread ω H} {a : ParkLabel H}

omit [Fintype ω] in
/-- A step of a worker from a place other than the head of the loop. -/
theorem parkStep_loop (w : ω) (n : ℕ) {pc : LoopPc ω H} (htop : pc ≠ .top) :
    parkStep (π := π) (.inl w) s (.worker n pc) a =
      (loopStep s w pc a).map fun r => (r.1, .worker n r.2) := by
  cases pc with
  | top => exact absurd rfl htop
  | _ => rfl

omit [Fintype ω] in
/-- Every step of a thread is one of these. -/
theorem parkStep_move (h : parkStep i s t a = some (s', t')) : ParkMove s i t a s' t' := by
  unfold parkStep at h
  split at h
  · cases h
    exact .search
  · obtain ⟨⟨q, pc'⟩, hr, he⟩ := Option.map_eq_some_iff.1 h
    cases he
    exact .loop hr
  · obtain ⟨⟨q, pc'⟩, hr, he⟩ := Option.map_eq_some_iff.1 h
    cases he
    exact .producer hr
  · cases h

/-- A worker does not try again at itself, and its own deque is empty once it has found it so. -/
def Parking.Fits (s : Parking ω H) : ω ⊕ π → ParkThread ω H → Prop
  | .inl w, .worker _ pc => pc.PeerOk w ∧ (pc.searched = true → s.deque w = [])
  | _, _ => True

/-- A thread that moves fits the queues after its step. -/
theorem ParkMove.fits_own (h : ParkMove s i t a s' t') (hfits : s.Fits i t) : s'.Fits i t' := by
  cases h with
  | @search w n =>
    show LoopPc.PeerOk w _ ∧ (LoopPc.searched _ = true → _)
    split <;> exact ⟨trivial, fun hs => (by cases hs)⟩
  | loop hst =>
    have hmoves := loopStep_moves hfits.1 hst
    exact ⟨hmoves.peerOk, fun hs => hmoves.searched hs hfits.2⟩
  | producer => trivial

/-- A thread that does not move fits the queues after the step of another. -/
theorem ParkMove.fits_other {j : ω ⊕ π} {u : ParkThread ω H} (h : ParkMove s i t a s' t')
    (hi : s.Fits i t) (hj : j ≠ i) (hfits : s.Fits j u) : s'.Fits j u := by
  cases j with
  | inr j => trivial
  | inl v =>
    cases u with
    | producer => trivial
    | worker n pc =>
      refine ⟨hfits.1, fun hs => ?_⟩
      have hnil := hfits.2 hs
      cases h with
      | search => exact hnil
      | loop hst => exact (loopStep_moves hi.1 hst).others v (fun hv => hj (congrArg _ hv)) hnil
      | producer hst => cases producerStep_trans (i := ()) hst <;> exact hnil

/-- A step that a thread takes of its own lowers the measure of what is queued and owed, or else of
how far the thread is. -/
theorem ParkMove.lower (h : ParkMove s i t a s' t') (hown : a.own = true) (hfits : s.Fits i t) :
    s'.tasks + s'.tokens + t'.owed < s.tasks + s.tokens + t.owed ∨
      s'.tasks + s'.tokens + t'.owed = s.tasks + s.tokens + t.owed ∧
        (t'.rank < t.rank ∨ t'.rank = t.rank ∧ (t'.width < t.width ∨ t'.width = t.width ∧
          3 * s'.idleStack.length + t'.small < 3 * s.idleStack.length + t.small)) := by
  cases h with
  | @search w n =>
    refine .inr ⟨rfl, .inl ?_⟩
    simp only [ParkThread.rank, LoopPc.rank]
    split <;> simp [FindPc.phase]
  | @loop w n pc pc' a s' hst =>
    have htasks := (loopStep_moves hfits.1 hst).tasks
    have hspawns : a.spawns = 0 := by
      cases a with
      | spawn => cases hown
      | _ => rfl
    have htrans := loopStep_cases hst
    simp only [ParkThread.owed, ParkThread.rank, ParkThread.width]
    rcases htrans.token_cases with ⟨htoken, hpark⟩ | ⟨-, -, htoken, hset⟩
    · have htokens : s'.tokens = s.tokens := by simp only [Parking.tokens, htoken]
      rcases Nat.eq_zero_or_pos a.finishes with hfinish | hfinish
      · refine .inr ⟨by omega, ?_⟩
        exact (htrans.closer hown hfinish hpark).imp_right fun h => ⟨h.1, .inl h.2⟩
      · exact .inl (by omega)
    · have htokens := s.tokens_update w false
      rw [htoken] at htokens
      have heq : s'.tokens = ({ s with token := Function.update s.token w false } :
          Parking ω H).tokens := by simp only [Parking.tokens, hset]
      simp only [Bool.toNat_true, Bool.toNat_false] at htokens
      exact .inl (by omega)
  | @producer k pc pc' a s' hst =>
    have hsmall := producerStep_lower hst hown
    have hle : s'.tasks + s'.tokens + pc'.owed ≤ s.tasks + s.tokens + pc.owed := by
      have hidle := ne_idle_of_own hst hown
      cases producerStep_trans (i := ()) hst with
      | inject | unparkOneIdle => exact absurd rfl hidle
      | push =>
        simp only [Parking.tasks, Parking.tokens, ProducerPc.owed, List.length_append,
          List.length_singleton]
        omega
      | @unpark _ w =>
        have htokens := s.tokens_update w true
        simp only [Bool.toNat_true] at htokens
        simp only [Parking.tasks, ProducerPc.owed] at htokens ⊢
        omega
      | _ => exact Nat.add_le_add_left (by simp [ProducerPc.owed]) _
    refine hle.lt_or_eq.imp_right fun heq => ⟨heq, .inr ⟨rfl, .inr ⟨rfl, hsmall⟩⟩⟩

end

/-- The thread is parked, or in no call. -/
def ParkThread.resting : ParkThread ω H → Bool
  | .worker _ .park | .producer .idle => true
  | _ => false

omit [Fintype ω] in
/-- A step by which a thread comes to rest leaves the injector empty, finds no worker to unpark, or
unparks one. -/
theorem ParkTrans.resting {i : ω ⊕ π} {s s' : Parking ω H} {t t' : ParkThread ω H}
    (h : ParkTrans s i t s' t') (hrest : t'.resting = true) :
    s'.injector = [] ∨ s'.idleCount = 0 ∨ s'.idleStack = [] ∨ ∃ w, s'.token w = true := by
  cases h with
  | recheckNone hinj => exact .inl hinj
  | loadNone hcount => exact .inr (.inl hcount)
  | popNone hstack => exact .inr (.inr (.inl hstack))
  | @unpark _ w => exact .inr (.inr (.inr ⟨w, Function.update_self ..⟩))
  | @work _ _ _ _ pc _ _ _ hpc | @unmarkNone _ _ _ pc hpc | @unmarkCount _ _ _ _ pc hpc =>
    cases pc with
    | park => cases hpc
    | _ => cases hrest
  | _ => cases hrest

/-! ## Invariants -/

section
variable [DecidableEq π] {c : ParkConfig ω H π}
  {G : ParkConfig ω H π → (ω ⊕ π) × ParkLabel H → Prop}

/-- Every thread fits the queues. -/
theorem reachable_fits (h : (parkMachine ω H π).Reachable G c) (j : ω ⊕ π) :
    c.shared.Fits j (c.loc j) := by
  refine Threads.invariant (J := fun _ => True) (I := fun c => ∀ j, c.shared.Fits j (c.loc j)) h
    (fun _ _ => trivial) ?_ ?_ j
  · intro j
    cases j with
    | inl w => exact ⟨trivial, fun hs => (by cases hs)⟩
    | inr i => trivial
  · rintro c i a s' _ t' _ hI _ rfl hst j
    have hmove := parkStep_move hst
    by_cases hj : j = i
    · subst hj
      simpa using hmove.fits_own (hI j)
    · simpa [Function.update_of_ne hj] using hmove.fits_other (hI i) hj (hI j)

/-- The thread holds the lock of `idle_stack`. -/
def ParkThread.counts : ParkThread ω H → Bool
  | .worker _ pc => pc.counts
  | .producer pc => pc.counts

omit [Fintype ω] in
/-- Where the lock of `idle_stack` is held, some thread is about to count. -/
theorem reachable_idleLock (h : (parkMachine ω H π).Reachable G c) (hl : c.shared.locked = true) :
    ∃ i, (c.loc i).counts = true := by
  refine Threads.invariant (J := fun _ => True) (I := fun c => c.shared.locked = true →
    ∃ i, (c.loc i).counts = true) h (fun _ _ => trivial) (fun hl => (by cases hl)) ?_ hl
  rintro c i a s' t t' _ hI _ hloc hst
  have hkeep : (t.counts = true → t'.counts = false → s'.locked = false) ∧
      (t.counts = false → t'.counts = false → s'.locked = c.shared.locked) := by
    cases parkStep_move hst with
    | search => exact ⟨fun hc => (by cases hc), fun _ _ => rfl⟩
    | loop hl => exact (loopStep_cases hl).locked
    | producer hp => exact producerStep_locked hp
  rw [← hloc] at hkeep
  exact @held_step _ _ _ _ _ (ParkThread.counts (ω := ω) (H := H)) _ _ _ hI hkeep.1 hkeep.2

/-! ## The pool comes to rest -/

/-- A step that a thread takes of its own. -/
def parkOwn (_ : ParkConfig ω H π) (a : (ω ⊕ π) × ParkLabel H) : Prop := a.2.own = true

section
variable [Fintype π]

/-- What lowers the contribution of the thread that moves lowers the measure. -/
theorem parkMeasure_lower {i : ω ⊕ π} {s' : Parking ω H} {t' : ParkThread ω H} {a : ParkLabel H}
    (h : ParkMove c.shared i (c.loc i) a s' t') (hown : a.own = true)
    (hfits : c.shared.Fits i (c.loc i)) :
    Prod.Lex (· < ·) lex (parkMeasure ⟨s', Function.update c.loc i t'⟩) (parkMeasure c) := by
  have howed := sum_update (Finset.mem_univ i) (fun _ => ParkThread.owed) c.loc t'
  rw [Prod.lex_def]
  simp only [parkMeasure]
  rcases h.lower hown hfits with hlt | ⟨heq, hrest⟩
  · exact .inl (by omega)
  · refine .inr ⟨by omega, lex_iff.2 ?_⟩
    rcases hrest with hrank | ⟨hrank, hrest⟩
    · exact .inl (sum_update_lt _ _ (fun _ _ => rfl) hrank)
    · refine .inr ⟨sum_update_eq _ _ (fun _ _ => rfl) hrank, ?_⟩
      rcases hrest with hwidth | ⟨hwidth, hsmall⟩
      · exact .inl (sum_update_lt _ _ (fun _ _ => rfl) hwidth)
      · refine .inr ⟨sum_update_eq _ _ (fun _ _ => rfl) hwidth, ?_⟩
        have hsum := sum_update (Finset.mem_univ i) (fun _ => ParkThread.small) c.loc t'
        show 3 * s'.idleStack.length + ∑ j, _ < 3 * c.shared.idleStack.length + ∑ j, _
        omega

/-- From no state that is reached can the threads take steps of their own for ever. -/
theorem park_ends (h : (parkMachine ω H π).Reachable anyStep c) :
    (parkMachine ω H π).Ends parkOwn c := by
  refine Ends.of_measure (I := (parkMachine ω H π).Reachable anyStep)
    (WellFounded.prod_lex Nat.lt_wfRel.wf lex_wf) parkMeasure ?_ h
  rintro c ⟨i, a⟩ c' hr hown hst
  obtain ⟨s', t', hp, rfl⟩ := step_iff.1 hst
  exact ⟨hr.tail trivial hst, parkMeasure_lower (parkStep_move hp) hown (reachable_fits hr i)⟩

end

/-- Nothing is queued, every worker is parked without a token, and no call of a producer is under
way. -/
structure PoolRests (c : ParkConfig ω H π) : Prop where
  injector : c.shared.injector = []
  deques : ∀ w, c.shared.deque w = []
  workers : ∀ w, Blocked c w
  producers : ∀ i, c.loc (.inr i) = .producer .idle

section
variable (h : (parkMachine ω H π).Reachable anyStep c)
  (hstuck : (parkMachine ω H π).Stuck parkOwn c)
include h hstuck

omit [Fintype ω] h in
/-- Where no step is enabled, no thread can go on. -/
theorem parkStep_none (i : ω ⊕ π) {a : ParkLabel H} (hown : a.own = true) :
    (parkStep i c.shared (c.loc i) a).isSome = false := by
  have hnone := hstuck (i, a) hown
  simpa [parkMachine, threads] using hnone

omit [Fintype ω] in
/-- There the lock of `idle_stack` is free. -/
theorem stuck_locked : c.shared.locked = false := by
  rw [Bool.eq_false_iff]
  intro hl
  obtain ⟨i, hcounts⟩ := reachable_idleLock h hl
  have hworker := reachable_isWorker h i
  have hnone := parkStep_none hstuck i (a := .go) rfl
  cases ht : c.loc i with
  | worker n pc =>
    rw [ht] at hcounts hworker hnone
    cases i with
    | inr i => cases hworker
    | inl w =>
      cases pc with
      | markCount | unmarkCount => cases hnone
      | _ => cases hcounts
  | producer pc =>
    rw [ht] at hcounts hworker hnone
    cases i with
    | inl w => cases hworker
    | inr i =>
      cases pc with
      | popCount => cases hnone
      | _ => cases hcounts

omit [Fintype ω] in
/-- There every worker is parked without a token. -/
theorem stuck_blocked (w : ω) : Blocked c w := by
  have hlocked := stuck_locked h hstuck
  have hworker := reachable_isWorker h (.inl w)
  cases ht : c.loc (.inl w) with
  | producer => rw [ht] at hworker; cases hworker
  | worker n pc =>
    by_cases htop : pc = .top
    · have hnone := parkStep_none hstuck (.inl w) (a := .go) rfl
      rw [ht, htop] at hnone
      cases hnone
    · rcases loopStep_enabled w hlocked htop with ⟨a, hown, hsome⟩ | ⟨rfl, htoken⟩
      · have hnone := parkStep_none hstuck (.inl w) hown
        rw [ht, parkStep_loop w n htop, Option.isSome_map, hsome] at hnone
        cases hnone
      · exact ⟨⟨n, ht⟩, htoken⟩

omit [Fintype ω] in
/-- There no call of a producer is under way. -/
theorem stuck_idle (i : π) : c.loc (.inr i) = .producer .idle := by
  have hlocked := stuck_locked h hstuck
  have hworker := reachable_isWorker h (.inr i)
  have hnone := parkStep_none hstuck (.inr i) (a := .go) rfl
  cases ht : c.loc (.inr i) with
  | worker => rw [ht] at hworker; cases hworker
  | producer pc =>
    rw [ht] at hnone
    cases pc with
    | idle => rfl
    | _ => simp [parkStep, producerStep, hlocked] at hnone

omit [Fintype ω] in
/-- There every thread is parked or in no call. -/
theorem stuck_resting (i : ω ⊕ π) : (c.loc i).resting = true := by
  cases i with
  | inl w =>
    obtain ⟨⟨n, hpark⟩, -⟩ := stuck_blocked h hstuck w
    rw [hpark]
    rfl
  | inr i =>
    rw [stuck_idle h hstuck i]
    rfl

/-- There the injector is empty: the step by which the last thread came to rest has left it so, as
all workers are on the stack. -/
theorem stuck_injector [Nonempty ω] [Fintype π] : c.shared.injector = [] := by
  have hblocked := stuck_blocked h hstuck
  have hidle := stuck_idle h hstuck
  have hresting := stuck_resting h hstuck
  have hcount := idleCount_of_blocked h hblocked hidle
  have hpos := List.length_pos_of_mem
    (mem_idleStack_of_blocked h hblocked hidle (Classical.arbitrary ω))
  cases h with
  | refl => rfl
  | @tail c₀ _ a hr _ hst =>
    obtain ⟨s', t', hp, rfl⟩ := step_iff.1 hst
    have hrest : t'.resting = true := by simpa using hresting a.1
    rcases (parkStep_trans hp).resting hrest with hinj | hzero | hnil | ⟨w, htoken⟩
    · exact hinj
    · simp only at hcount hpos
      omega
    · simp [hnil] at hpos
    · exact absurd htoken (Bool.eq_false_iff.1 (hblocked w).2)

/-- Where no thread can go on, the pool is at rest. -/
theorem poolRests_of_stuck [Nonempty ω] [Fintype π] : PoolRests c where
  injector := stuck_injector h hstuck
  deques w := by
    have hfits := reachable_fits h (.inl w)
    obtain ⟨⟨n, hpark⟩, -⟩ := stuck_blocked h hstuck w
    rw [hpark] at hfits
    exact hfits.2 rfl
  workers := stuck_blocked h hstuck
  producers := stuck_idle h hstuck

end

/-- From every state that is reached, by any interleaving in which tasks were spawned and injected
as it pleased, the threads cannot go on for ever on their own, and when no thread can go on no task
is queued or run, every worker is parked without a token, and no call of a producer is under way.
There is at least one worker. -/
theorem pool_comes_to_rest [Nonempty ω] [Fintype π] (h : (parkMachine ω H π).Reachable anyStep c) :
    (parkMachine ω H π).Ends parkOwn c ∧
      ∀ c', (parkMachine ω H π).Reach parkOwn c c' → (parkMachine ω H π).Stuck parkOwn c' →
        PoolRests c' := by
  refine ⟨park_ends h, fun c' hr hstuck => ?_⟩
  have hr' : (parkMachine ω H π).Reachable anyStep c' := h.trans (hr.mono fun _ _ _ => trivial)
  exact poolRests_of_stuck hr' hstuck

/-- So every run can be carried on to one at the end of which the pool is at rest. -/
theorem exists_poolRests [Nonempty ω] [Fintype π]
    (h : (parkMachine ω H π).Reachable anyStep c) :
    ∃ c', (parkMachine ω H π).Reach parkOwn c c' ∧ PoolRests c' := by
  obtain ⟨c', hr, hstuck⟩ := (park_ends h).exists_last
  exact ⟨c', hr, poolRests_of_stuck (h.trans (hr.mono fun _ _ _ => trivial)) hstuck⟩

end

/-- A worker that has marked itself idle, and a task that was injected before it counted, come to
rest: the task does not wait for the timeout of the park. -/
theorem pool_comes_to_rest_stale_count :
    ∃ c, (parkMachine Unit ℕ Unit).run (parkMachine Unit ℕ Unit).init staleCountRun = some c ∧
      c.shared.injector = [5] ∧ (parkMachine Unit ℕ Unit).Ends parkOwn c ∧
      ∀ c', (parkMachine Unit ℕ Unit).Reach parkOwn c c' →
        (parkMachine Unit ℕ Unit).Stuck parkOwn c' → PoolRests c' :=
  ⟨_, rfl, rfl, pool_comes_to_rest (Machine.reach_of_run staleCountRun rfl)⟩

end Hypertile
