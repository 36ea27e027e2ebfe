import Hypertile.Park.Core

/-!
# The steps of a parking worker

`LoopTrans` lists what `run_loop` does from a place other than its head, one constructor for each
way a step can go, and `loopStep_cases` reads a step of `loopStep` back as one of them. Where a step
takes a task, the queues after it are left open; all else is as the code leaves it. An attempt that
gives no task leaves everything as it was.
-/

namespace Hypertile

variable {ω H : Type} [DecidableEq ω]

namespace Parking

/-- Other contents of the queues. -/
def withQueues (s : Parking ω H) (injector : List H) (deque : ω → List H) : Parking ω H :=
  { s with injector, deque }

/-- A steal from the injector is not retried, moves tasks, or finds none. -/
theorem stealInjector_cases {s s' : Parking ω H} {w : ω} {ch : Choice} {r : Steal H}
    (h : s.stealInjector w ch = some (s', r)) :
    (∃ task injector deque, r = .success task ∧ s' = s.withQueues injector deque) ∨
      (r = .empty ∧ s' = s) := by
  cases ch with
  | retry => cases h
  | batch n =>
    simp only [stealInjector, Option.some.injEq] at h
    split at h
    · cases h; exact .inr ⟨rfl, rfl⟩
    · cases h; exact .inl ⟨_, _, _, rfl, rfl⟩

/-- A pop of the local deque takes a task or finds none. -/
theorem localPop_cases {s s' : Parking ω H} {w : ω} {r : Steal H} (h : s.localPop w = (s', r)) :
    (∃ task injector deque, r = .success task ∧ s' = s.withQueues injector deque) ∨
      (r = .empty ∧ s' = s) := by
  unfold localPop at h
  split at h
  · cases h; exact .inr ⟨rfl, rfl⟩
  · cases h; exact .inl ⟨_, s.injector, _, rfl, rfl⟩

/-- A steal from a peer moves tasks, finds none or has to be retried. -/
theorem stealPeer_cases {s s' : Parking ω H} {w peer : ω} {ch : Choice} {r : Steal H}
    (h : s.stealPeer w peer ch = (s', r)) :
    (∃ task injector deque, r = .success task ∧ s' = s.withQueues injector deque) ∨
      ((r = .empty ∨ r = .retry) ∧ s' = s) := by
  cases ch with
  | retry => cases h; exact .inr ⟨.inr rfl, rfl⟩
  | batch n =>
    simp only [stealPeer] at h
    split at h
    · cases h; exact .inr ⟨.inl rfl, rfl⟩
    · cases h; exact .inl ⟨_, s.injector, _, rfl, rfl⟩

end Parking

/-- The places of `find_task` that come after the one at which an attempt found nothing, or has to
be repeated. -/
inductive FindNext : FindPc ω → FindPc ω → Prop
  | injectorFirst : FindNext .injectorFirst .localDeque
  | localDeque : FindNext .localDeque .injector
  | injector : FindNext .injector .stealers
  | injectorAgain : FindNext .injectorAgain .stealers
  | peer {peer : ω} {rest : List ω} : FindNext (.peers (peer :: rest)) (.peers rest)
  | retry {peer : ω} {rest : List ω} : FindNext (.peers (peer :: rest)) (.peerAgain peer rest)
  | peerAgain {peer : ω} {rest : List ω} : FindNext (.peerAgain peer rest) (.peers rest)

/-- `LoopTrans s w pc a q pc'`: worker `w` at `pc` in `run_loop` can take the step `a` from `s`, to
`q` and `pc'`. -/
inductive LoopTrans (s : Parking ω H) (w : ω) :
    LoopPc ω H → ParkLabel H → Parking ω H → LoopPc ω H → Prop
  | register : LoopTrans s w .register .go { s with workers := w :: s.workers } .top
  | findGot {pc : FindPc ω} {ch : Choice} {task : H} {injector : List H} {deque : ω → List H} :
      LoopTrans s w (.find pc) (.attempt ch) (s.withQueues injector deque) (.run task (.drain 0))
  | findNext {pc pc' : FindPc ω} {ch : Choice} (hnext : FindNext pc pc') :
      LoopTrans s w (.find pc) (.attempt ch) s (.find pc')
  | start {victim : ℕ} {peers : List ω} :
      LoopTrans s w (.find .stealers) (.start victim) s (.find (.peers peers))
  | startNone {victim : ℕ} : LoopTrans s w (.find .stealers) (.start victim) s (.spin 0)
  | peersDone : LoopTrans s w (.find (.peers [])) .go s (.spin 0)
  | peersSelf {rest : List ω} :
      LoopTrans s w (.find (.peers (w :: rest))) .go s (.find (.peers rest))
  | spawn {task new : H} {next : AfterRun} {deque : ω → List H} :
      LoopTrans s w (.run task next) (.spawn new) (s.withQueues s.injector deque) (.run task next)
  | finish {task : H} {next : AfterRun} : LoopTrans s w (.run task next) .finish s next.pc
  | drainGot {n : ℕ} {task : H} {injector : List H} {deque : ω → List H} (hn : n < 16) :
      LoopTrans s w (.drain n) .go (s.withQueues injector deque) (.run task (.drain (n + 1)))
  | drained {n : ℕ} : LoopTrans s w (.drain n) .go s .top
  | spinGot {n : ℕ} {task : H} {injector : List H} {deque : ω → List H} :
      LoopTrans s w (.spin n) .go (s.withQueues injector deque) (.run task .top)
  | spinNone {n : ℕ} (hn : n < 32) : LoopTrans s w (.spin n) .go s (.spinInjector n)
  | spun {n : ℕ} : LoopTrans s w (.spin n) .go s .mark
  | spinInjectorGot {n : ℕ} {ch : Choice} {task : H} {injector : List H} {deque : ω → List H} :
      LoopTrans s w (.spinInjector n) (.attempt ch) (s.withQueues injector deque) (.run task .top)
  | spinInjectorNone {n : ℕ} {ch : Choice} :
      LoopTrans s w (.spinInjector n) (.attempt ch) s (.spin (n + 1))
  | markAgain (hfree : s.locked = false) : LoopTrans s w .mark .go s .recheck
  | mark (hfree : s.locked = false) :
      LoopTrans s w .mark .go { s with idleStack := w :: s.idleStack, locked := true } .markCount
  | markCount :
      LoopTrans s w .markCount .go { s with idleCount := s.idleCount + 1, locked := false } .recheck
  | recheckGot {ch : Choice} {task : H} {injector : List H} {deque : ω → List H} :
      LoopTrans s w .recheck (.attempt ch) (s.withQueues injector deque) (.unmark (some task))
  | recheckNone {ch : Choice} : LoopTrans s w .recheck (.attempt ch) s .park
  | park (htoken : s.token w = true) :
      LoopTrans s w .park .go { s with token := Function.update s.token w false } (.unmark none)
  | unmark {task : Option H} {removed : ℕ} (hfree : s.locked = false) :
      LoopTrans s w (.unmark task) .go
        { s with idleStack := s.idleStack.filter (· ≠ w), locked := true }
        (.unmarkCount removed task)
  | unmarkNone {task : Option H} (hfree : s.locked = false) :
      LoopTrans s w (.unmark task) .go s (afterUnmark task)
  | unmarkCount {task : Option H} {removed : ℕ} :
      LoopTrans s w (.unmarkCount removed task) .go
        { s with idleCount := s.idleCount - removed, locked := false } (afterUnmark task)

/-- An attempt of `find_task` takes a task or goes on to the next place. -/
theorem attempt_cases {s s' : Parking ω H} {w : ω} {ch : Choice} {pc : FindPc ω} {r : Steal H}
    (h : s.attempt w ch pc = some (s', r)) :
    (∃ task injector deque, r = .success task ∧ s' = s.withQueues injector deque) ∨
      (r = .empty ∧ s' = s ∧ FindNext pc pc.onEmpty) ∨
      (r = .retry ∧ s' = s ∧ FindNext pc pc.onRetry) := by
  cases pc with
  | injectorFirst | injector | injectorAgain =>
    refine (Parking.stealInjector_cases h).imp_right fun hnone => .inl ⟨hnone.1, hnone.2, ?_⟩
    constructor
  | localDeque =>
    refine (Parking.localPop_cases (Option.some.inj h)).imp_right fun hnone => ?_
    exact .inl ⟨hnone.1, hnone.2, .localDeque⟩
  | stealers => cases h
  | peerAgain peer rest =>
    refine (Parking.stealPeer_cases (Option.some.inj h)).imp_right ?_
    rintro ⟨rfl | rfl, hs⟩
    · exact .inl ⟨rfl, hs, .peerAgain⟩
    · exact .inr ⟨rfl, hs, .peerAgain⟩
  | peers rest =>
    cases rest with
    | nil => cases h
    | cons peer rest =>
      simp only [Parking.attempt] at h
      split at h
      · cases h
      · refine (Parking.stealPeer_cases (Option.some.inj h)).imp_right ?_
        rintro ⟨rfl | rfl, hs⟩
        · exact .inl ⟨rfl, hs, .peer⟩
        · exact .inr ⟨rfl, hs, .retry⟩

/-- Every step of `run_loop` from a place other than its head is one of the steps. -/
theorem loopStep_cases {s q : Parking ω H} {w : ω} {pc pc' : LoopPc ω H} {a : ParkLabel H}
    (h : loopStep s w pc a = some (q, pc')) : LoopTrans s w pc a q pc' := by
  unfold loopStep at h
  split at h
  · cases h; exact .register
  · -- an attempt of `find_task`
    obtain ⟨⟨q₁, r⟩, hr, he⟩ := Option.map_eq_some_iff.1 h
    rcases attempt_cases hr with ⟨task, inj, deq, rfl, rfl⟩ | ⟨rfl, rfl, hn⟩ | ⟨rfl, rfl, hn⟩
    · cases he; exact .findGot
    · cases he; exact .findNext hn
    · cases he; exact .findNext hn
  · cases h
    split
    · exact .start
    · exact .startNone
  · cases h; exact .peersDone
  · split at h
    · next hpeer => cases h; cases hpeer; exact .peersSelf
    · cases h
  · cases h; exact .spawn
  · cases h; exact .finish
  · -- the drain of the local deque
    split at h
    · next hn =>
      cases hr : s.localPop w with
      | mk q₁ r =>
        rw [hr] at h
        rcases Parking.localPop_cases hr with ⟨task, inj, deq, rfl, rfl⟩ | ⟨rfl, rfl⟩
        · cases h; exact .drainGot hn
        · cases h; exact .drained
    · cases h; exact .drained
  · split at h
    · next hn =>
      cases hr : s.localPop w with
      | mk q₁ r =>
        rw [hr] at h
        rcases Parking.localPop_cases hr with ⟨task, inj, deq, rfl, rfl⟩ | ⟨rfl, rfl⟩
        · cases h; exact .spinGot
        · cases h; exact .spinNone hn
    · cases h; exact .spun
  · obtain ⟨⟨q₁, r⟩, hr, he⟩ := Option.map_eq_some_iff.1 h
    rcases Parking.stealInjector_cases hr with ⟨task, inj, deq, rfl, rfl⟩ | ⟨rfl, rfl⟩
    · cases he; exact .spinInjectorGot
    · cases he; exact .spinInjectorNone
  · split at h
    · cases h
    · next hfree =>
      have hfree := Bool.eq_false_iff.2 hfree
      simp only [Parking.markIdle] at h
      split at h
      · cases h; exact .markAgain hfree
      · cases h; exact .mark hfree
  · cases h; exact .markCount
  · -- the second look at the injector
    obtain ⟨⟨q₁, r⟩, hr, he⟩ := Option.map_eq_some_iff.1 h
    rcases Parking.stealInjector_cases hr with ⟨task, inj, deq, rfl, rfl⟩ | ⟨rfl, rfl⟩
    · cases he; exact .recheckGot
    · cases he; exact .recheckNone
  · split at h
    · next htoken => cases h; exact .park htoken
    · cases h
  · split at h
    · cases h
    · next hfree =>
      have hfree := Bool.eq_false_iff.2 hfree
      simp only [Parking.unmarkIdle] at h
      split at h
      · cases h; exact .unmark hfree
      · cases h; exact .unmarkNone hfree
  · cases h; exact .unmarkCount
  · cases h

end Hypertile
