import Hypertile.CApi.Nested
import Mathlib.Tactic.Abel

/-!
# Deadlock of nested calls

A work function waits only for tasks that were spawned after its own. So where every worker that
runs a task is blocked, the handle of what is waited for is queued (`NestInv.exists_queued`): the
tasks that the workers wait for cannot all be run by workers that wait. The pool is deadlocked
exactly when all workers are blocked, which a worker brings about when it parks while the others are
blocked (`nested_calls_deadlock_iff`); and while some worker is in no such call, that worker can run
what the others wait for.
-/

namespace Hypertile

open Machine Machine.Threads

variable {n : ℕ} {ε : Type}

/-! ## The steps -/

/-- `NestTrans s t m a s' m'`: thread `t` at `m` can take the step `a` from `s`, to `s'` and `m'`.
-/
inductive NestTrans (s : NestShared n) :
    Fin n ⊕ ε → NestPc → NestAct n → NestShared n → NestPc → Prop
  | take {i : Fin n} {source : HandleSource n} {more task : ℕ} {s' : NestShared n}
      (htake : s.take i more source = some (task, s')) :
      NestTrans s (.inl i) .free (.take source more) s' (.work (some task) [])
  | finish {t : Fin n ⊕ ε} {task : ℕ} {mine : List ℕ} :
      NestTrans s t (.work (some task) mine) .go
        { s with done := Function.update s.done task true } .free
  | spawn {t : Fin n ⊕ ε} {task : Option ℕ} {mine : List ℕ} :
      NestTrans s t (.work task mine) .spawn (s.spawn t) (.work task (mine ++ [s.spawned]))
  | batchSpawn {t : Fin n ⊕ ε} {task : Option ℕ} {mine : List ℕ} {chunks : ℕ} :
      NestTrans s t (.work task mine) (.batchSpawn chunks) s (.batch task mine chunks [])
  | wait {t : Fin n ⊕ ε} {task : Option ℕ} {mine : List ℕ} {handle : ℕ} (hmine : handle ∈ mine) :
      NestTrans s t (.work task mine) (.wait handle) s (.park task mine [handle])
  | chunk {t : Fin n ⊕ ε} {task : Option ℕ} {mine : List ℕ} {left : ℕ} {chunks : List ℕ} :
      NestTrans s t (.batch task mine (left + 1) chunks) .go (s.spawn t)
        (.batch task mine left (chunks ++ [s.spawned]))
  | park {t : Fin n ⊕ ε} {task : Option ℕ} {mine chunks : List ℕ} :
      NestTrans s t (.batch task mine 0 chunks) .go s (.park task mine chunks)
  | return {t : Fin n ⊕ ε} {task : Option ℕ} {mine awaited : List ℕ}
      (hdone : s.allDone awaited = true) :
      NestTrans s t (.park task mine awaited) .go s (.work task mine)

/-- What a step can do. -/
theorem nestStep_trans {t : Fin n ⊕ ε} {s s' : NestShared n} {m m' : NestPc} {a : NestAct n}
    (h : nestStep t s m a = some (s', m')) : NestTrans s t m a s' m' := by
  unfold nestStep at h
  split at h
  · split at h
    · obtain ⟨⟨task, s₁⟩, htake, he⟩ := Option.map_eq_some_iff.1 h
      cases he
      exact .take htake
    · cases h
  · cases h; exact .finish
  · cases h; exact .spawn
  · cases h; exact .batchSpawn
  · split at h
    · next hmine => cases h; exact .wait hmine
    · cases h
  · cases h; exact .chunk
  · cases h; exact .park
  · split at h
    · next hdone => cases h; exact .return hdone
    · cases h
  · cases h

/-! ## The handles in the queues -/

namespace NestShared

variable {s s' : NestShared n} {t : Fin n ⊕ ε} {task : ℕ}

/-- The handles that are queued. -/
def handles (s : NestShared n) : Multiset ℕ := s.injector + ∑ i, (s.deque i : Multiset ℕ)

/-- A handle that is queued is in the injector or in a deque. -/
theorem mem_handles : task ∈ s.handles ↔ s.Queued task := by
  simp only [handles, Queued, Multiset.mem_add, Multiset.mem_coe, Multiset.mem_sum,
    Finset.mem_univ, true_and]

/-- How the handles in the deques change with one deque. -/
theorem sum_deque (f : Fin n → List ℕ) (i : Fin n) (l : List ℕ) :
    ∑ j, (Function.update f i l j : Multiset ℕ) + (f i : Multiset ℕ) =
      ∑ j, (f j : Multiset ℕ) + (l : Multiset ℕ) :=
  sum_update (Finset.mem_univ i) (fun _ (l : List ℕ) => (l : Multiset ℕ)) f l

/-- A batch that comes to the end of a deque. -/
theorem sum_deque_append (f : Fin n → List ℕ) (i : Fin n) (l : List ℕ) :
    ∑ j, (Function.update f i (f i ++ l) j : Multiset ℕ) =
      ∑ j, (f j : Multiset ℕ) + (l : Multiset ℕ) := by
  have hsum := sum_deque f i (f i ++ l)
  rw [← Multiset.coe_add, add_comm (f i : Multiset ℕ), ← add_assoc] at hsum
  exact add_right_cancel hsum

/-- A spawn queues the handle of the new task. -/
theorem handles_spawn (s : NestShared n) (t : Fin n ⊕ ε) :
    (s.spawn t).handles = s.handles + {s.spawned} := by
  cases t with
  | inl i =>
    change (s.injector : Multiset ℕ) + ∑ j, (Function.update s.deque i _ j : Multiset ℕ) = _
    rw [sum_deque_append, ← add_assoc]
    rfl
  | inr e =>
    change ((s.injector ++ [s.spawned] : List ℕ) : Multiset ℕ) + _ = _
    rw [← Multiset.coe_add, add_right_comm]
    rfl

/-- A handle that is taken was queued, and the others still are. -/
theorem handles_take {i : Fin n} {source : HandleSource n} {more : ℕ}
    (h : s.take i more source = some (task, s')) :
    s'.handles + {task} = s.handles ∧ s'.spawned = s.spawned ∧ s'.done = s.done := by
  have hsplit : ∀ l : List ℕ, ((task :: l : List ℕ) : Multiset ℕ) =
      (l.take more : Multiset ℕ) + (l.drop more : Multiset ℕ) + {task} := by
    intro l
    rw [Multiset.coe_add, List.take_append_drop, ← Multiset.cons_coe, ← Multiset.singleton_add,
      add_comm]
  cases source with
  | «local» =>
    simp only [take] at h
    split at h
    · cases h
    · next rest hd =>
      cases h
      have hsum := sum_deque s.deque i rest
      rw [hd, ← Multiset.cons_coe, ← Multiset.singleton_add, add_comm ({task} : Multiset ℕ),
        ← add_assoc, add_right_comm] at hsum
      refine ⟨?_, rfl, rfl⟩
      change (s.injector : Multiset ℕ) + ∑ j, (Function.update s.deque i rest j : Multiset ℕ) +
        {task} = _
      rw [add_assoc, add_right_cancel hsum]
      rfl
  | injector =>
    simp only [take] at h
    split at h
    · cases h
    · next rest hq =>
      cases h
      refine ⟨?_, rfl, rfl⟩
      change ((rest.drop more : List ℕ) : Multiset ℕ) +
        ∑ j, (Function.update s.deque i _ j : Multiset ℕ) + {task} = _
      rw [sum_deque_append, handles, hq, hsplit]
      abel
  | peer j =>
    simp only [take] at h
    split at h
    · cases h
    · next hne =>
      split at h
      · cases h
      · next rest hd =>
        cases h
        have hsum := sum_deque s.deque j (rest.drop more)
        have hown : Function.update s.deque j (rest.drop more) i = s.deque i :=
          Function.update_of_ne (Ne.symm hne) ..
        have happend := sum_deque_append (Function.update s.deque j (rest.drop more)) i
          (rest.take more)
        rw [hown] at happend
        rw [hd, hsplit] at hsum
        refine ⟨?_, rfl, rfl⟩
        change (s.injector : Multiset ℕ) + ∑ k, (Function.update
          (Function.update s.deque j (rest.drop more)) i (s.deque i ++ rest.take more) k :
            Multiset ℕ) + {task} = _
        rw [happend, handles]
        refine add_right_cancel (b := (rest.drop more : Multiset ℕ)) ?_
        rw [add_assoc (s.injector : Multiset ℕ) (∑ k, (s.deque k : Multiset ℕ)), ← hsum]
        abel

end NestShared

/-! ## Who waits for what -/

namespace NestPc

/-- The task that a worker runs. -/
def task : NestPc → Option ℕ
  | .free => none
  | .work task _ | .batch task _ _ _ | .park task _ _ => task

/-- The tasks that the code of a thread has spawned and those of its call. -/
def known : NestPc → List ℕ
  | .free => []
  | .work _ mine => mine
  | .batch _ mine _ tasks | .park _ mine tasks => mine ++ tasks

/-- The tasks that a thread in a park loop waits for. -/
def awaited : NestPc → List ℕ
  | .park _ _ awaited => awaited
  | _ => []

/-- The thread is in a blocking call. -/
def inCall : NestPc → Bool
  | .batch _ _ _ _ | .park _ _ _ => true
  | _ => false

/-- The thread is in a park loop and cannot go on. -/
def Blocked (s : NestShared n) (m : NestPc) : Prop := ∃ task ∈ m.awaited, s.done task = false

/-- The tasks of a thread are spawned, those that it knows after the one that it runs. -/
structure Ordered (spawned : ℕ) (m : NestPc) : Prop where
  task_lt : ∀ task, m.task = some task → task < spawned
  known_lt : ∀ handle ∈ m.known, handle < spawned
  task_lt_known : ∀ task, m.task = some task → ∀ handle ∈ m.known, task < handle

/-- More tasks may be spawned. -/
theorem Ordered.mono {m : NestPc} {k k' : ℕ} (h : m.Ordered k) (hk : k ≤ k') : m.Ordered k' where
  task_lt task ht := (h.task_lt task ht).trans_le hk
  known_lt handle hh := (h.known_lt handle hh).trans_le hk
  task_lt_known := h.task_lt_known

/-- A thread that comes to know a task that is spawned now. -/
theorem Ordered.snoc {m m' : NestPc} {k : ℕ} (h : m.Ordered k) (htask : m'.task = m.task)
    (hknown : m'.known = m.known ++ [k]) : m'.Ordered (k + 1) where
  task_lt task ht := (h.task_lt task (htask ▸ ht)).trans (Nat.lt_succ_self k)
  known_lt handle hh := by
    rw [hknown, List.mem_append, List.mem_singleton] at hh
    rcases hh with hh | rfl
    · exact (h.known_lt handle hh).trans (Nat.lt_succ_self k)
    · exact Nat.lt_succ_self handle
  task_lt_known task ht handle hh := by
    rw [hknown, List.mem_append, List.mem_singleton] at hh
    rcases hh with hh | rfl
    · exact h.task_lt_known task (htask ▸ ht) handle hh
    · exact h.task_lt task (htask ▸ ht)

/-- A thread that runs the same task and knows no others. -/
theorem Ordered.of_subset {m m' : NestPc} {k : ℕ} (h : m.Ordered k) (htask : m'.task = m.task)
    (hknown : m'.known ⊆ m.known) : m'.Ordered k where
  task_lt task ht := h.task_lt task (htask ▸ ht)
  known_lt handle hh := h.known_lt handle (hknown hh)
  task_lt_known task ht handle hh := h.task_lt_known task (htask ▸ ht) handle (hknown hh)

end NestPc

/-- A task that is not done is queued or run by a worker, and a thread runs and knows tasks in the
order in which they were spawned. -/
structure NestInv (s : NestShared n) (f : Fin n ⊕ ε → NestPc) : Prop where
  placed : ∀ task < s.spawned, s.done task = false →
    task ∈ s.handles ∨ ∃ i, (f (.inl i)).task = some task
  queued_lt : ∀ task ∈ s.handles, task < s.spawned
  ordered : ∀ t, (f t).Ordered s.spawned
  foreign : ∀ e, (f (.inr e)).task = none
  worker : ∀ i, (f (.inl i)).task = none → f (.inl i) = .free

section
variable {s s' : NestShared n} {f : Fin n ⊕ ε → NestPc} {t : Fin n ⊕ ε} {m m' : NestPc}
  {a : NestAct n}

/-- What a step leaves of the queues, but for the steps that take, finish or spawn a task. -/
theorem NestTrans.frame (h : NestTrans s t m a s' m') :
    (s'.handles = s.handles ∧ s'.spawned = s.spawned ∧ s'.done = s.done ∧ m ≠ .free ∧
      m'.task = m.task ∧ m'.known ⊆ m.known) ∨
    (s'.handles = s.handles + {s.spawned} ∧ s'.spawned = s.spawned + 1 ∧ s'.done = s.done ∧
      m ≠ .free ∧ m'.task = m.task ∧ m'.known = m.known ++ [s.spawned]) ∨
    (∃ task, s'.handles + {task} = s.handles ∧ s'.spawned = s.spawned ∧ s'.done = s.done ∧
      m = .free ∧ m' = .work (some task) [] ∧ ∃ i, t = .inl i) ∨
    ∃ task mine, m = .work (some task) mine ∧ m' = .free ∧
      s' = { s with done := Function.update s.done task true } := by
  have hspawn : (s.spawn t).spawned = s.spawned + 1 ∧ (s.spawn t).done = s.done := by
    cases t <;> exact ⟨rfl, rfl⟩
  cases h with
  | take htake =>
    obtain ⟨hhandles, hspawned, hdone⟩ := NestShared.handles_take htake
    exact .inr (.inr (.inl ⟨_, hhandles, hspawned, hdone, rfl, rfl, _, rfl⟩))
  | finish => exact .inr (.inr (.inr ⟨_, _, rfl, rfl, rfl⟩))
  | spawn => exact .inr (.inl ⟨s.handles_spawn t, hspawn.1, hspawn.2, nofun, rfl, rfl⟩)
  | batchSpawn =>
    refine .inl ⟨rfl, rfl, rfl, nofun, rfl, ?_⟩
    exact fun x hx => (List.mem_append.1 hx).resolve_right List.not_mem_nil
  | wait hmine =>
    refine .inl ⟨rfl, rfl, rfl, nofun, rfl, List.append_subset.2 ⟨List.Subset.refl _, ?_⟩⟩
    exact fun x hx => List.mem_singleton.1 hx ▸ hmine
  | chunk =>
    exact .inr (.inl ⟨s.handles_spawn t, hspawn.1, hspawn.2, nofun, rfl,
      (List.append_assoc ..).symm⟩)
  | park => exact .inl ⟨rfl, rfl, rfl, nofun, rfl, List.Subset.refl _⟩
  | «return» => exact .inl ⟨rfl, rfl, rfl, nofun, rfl, List.subset_append_left ..⟩

variable [DecidableEq ε]

omit [DecidableEq ε] in
/-- The invariant holds at the start. -/
theorem NestInv.init : NestInv (nestStart n ε).shared (nestStart n ε).loc where
  placed _ h := absurd h (Nat.not_lt_zero _)
  queued_lt task h := by
    rw [NestShared.mem_handles] at h
    rcases h with h | ⟨i, h⟩ <;> cases h
  ordered t := by
    cases t <;> exact ⟨nofun, nofun, nofun⟩
  foreign _ := rfl
  worker _ _ := rfl

/-- A worker that moves without a change of its task leaves every task with who runs it. -/
theorem runs_update {task : ℕ} (htask : m'.task = (f t).task)
    (hrun : ∃ i, (f (.inl i)).task = some task) :
    ∃ i, (Function.update f t m' (.inl i)).task = some task := by
  obtain ⟨i, hi⟩ := hrun
  refine ⟨i, ?_⟩
  by_cases hit : .inl i = t
  · rw [← hit] at htask ⊢
    rw [Function.update_self, htask, hi]
  · rw [Function.update_of_ne hit, hi]

/-- A step keeps the invariant. -/
theorem NestInv.step (hI : NestInv s f) (h : NestTrans s t (f t) a s' m') :
    NestInv s' (Function.update f t m') := by
  have hordered : ∀ {k : ℕ}, s.spawned ≤ k → m'.Ordered k →
      ∀ j, (Function.update f t m' j).Ordered k := by
    intro k hk hm' j
    by_cases hj : j = t
    · rw [hj, Function.update_self]
      exact hm'
    · rw [Function.update_of_ne hj]
      exact (hI.ordered j).mono hk
  have hforeign : (∀ e, t = .inr e → m'.task = none) →
      ∀ e, (Function.update f t m' (.inr e)).task = none := by
    intro hm' e
    by_cases he : .inr e = t
    · rw [he, Function.update_self]
      exact hm' e he.symm
    · rw [Function.update_of_ne he]
      exact hI.foreign e
  have hworker : (∀ i, t = .inl i → m'.task = none → m' = .free) → ∀ i,
      (Function.update f t m' (.inl i)).task = none → Function.update f t m' (.inl i) = .free := by
    intro hm' i
    by_cases hi : .inl i = t
    · rw [hi, Function.update_self]
      exact hm' i hi.symm
    · rw [Function.update_of_ne hi]
      exact hI.worker i
  -- a thread that runs no task is no worker, or a free one
  have hidle : f t ≠ .free → m'.task = (f t).task → ∀ i, t = .inl i → m'.task = none →
      m' = .free := by
    rintro hbusy htask i rfl hnone
    exact absurd (hI.worker i (htask ▸ hnone)) hbusy
  rcases h.frame with ⟨hh, hs, hd, hbusy, htask, hknown⟩ | ⟨hh, hs, hd, hbusy, htask, hknown⟩ |
    ⟨task, hh, hs, hd, hfree, hm', i, rfl⟩ | ⟨task, mine, hwork, hm', rfl⟩
  · refine ⟨?_, ?_, ?_, hforeign fun e he => ?_, hworker (hidle hbusy htask)⟩
    · rw [hs, hd, hh]
      exact fun x hx hxd => (hI.placed x hx hxd).imp_right (runs_update htask)
    · rw [hs, hh]
      exact hI.queued_lt
    · rw [hs]
      exact hordered le_rfl ((hI.ordered t).of_subset htask hknown)
    · rw [htask, he]
      exact hI.foreign e
  · refine ⟨?_, ?_, ?_, hforeign fun e he => ?_, hworker (hidle hbusy htask)⟩
    · rw [hs, hd, hh]
      intro x hx hxd
      rcases Nat.lt_succ_iff_lt_or_eq.1 hx with hx | rfl
      · rcases hI.placed x hx hxd with hq | hrun
        · exact .inl (Multiset.mem_add.2 (.inl hq))
        · exact .inr (runs_update htask hrun)
      · exact .inl (Multiset.mem_add.2 (.inr (Multiset.mem_singleton_self _)))
    · rw [hs, hh]
      intro x hx
      rcases Multiset.mem_add.1 hx with hx | hx
      · exact (hI.queued_lt x hx).trans (Nat.lt_succ_self _)
      · rw [Multiset.mem_singleton.1 hx]
        exact Nat.lt_succ_self _
    · rw [hs]
      exact hordered (Nat.le_succ _) ((hI.ordered t).snoc htask hknown)
    · rw [htask, he]
      exact hI.foreign e
  · subst hm'
    have hmem : task ∈ s.handles := by
      rw [← hh]
      exact Multiset.mem_add.2 (.inr (Multiset.mem_singleton_self _))
    refine ⟨?_, ?_, ?_, hforeign nofun, hworker fun _ _ => nofun⟩
    · rw [hs, hd]
      intro x hx hxd
      rcases hI.placed x hx hxd with hq | ⟨j, hj⟩
      · rw [← hh] at hq
        rcases Multiset.mem_add.1 hq with hq | hq
        · exact .inl hq
        · refine .inr ⟨i, ?_⟩
          rw [Function.update_self, Multiset.mem_singleton.1 hq]
          rfl
      · refine .inr ⟨j, ?_⟩
        rw [Function.update_of_ne, hj]
        intro hji
        rw [hji, hfree] at hj
        cases hj
    · rw [hs]
      intro x hx
      refine hI.queued_lt x ?_
      rw [← hh]
      exact Multiset.mem_add.2 (.inl hx)
    · rw [hs]
      refine hordered le_rfl ⟨?_, nofun, nofun⟩
      rintro x hx
      cases hx
      exact hI.queued_lt _ hmem
  · subst hm'
    refine ⟨?_, hI.queued_lt, hordered le_rfl ⟨nofun, nofun, nofun⟩, hforeign fun _ _ => rfl,
      hworker fun _ _ _ => rfl⟩
    intro x hx hxd
    have hne : x ≠ task := by
      rintro rfl
      simp at hxd
    have hxd' : s.done x = false := by
      simpa only [Function.update_of_ne hne] using hxd
    refine (hI.placed x hx hxd').imp_right ?_
    rintro ⟨j, hj⟩
    refine ⟨j, ?_⟩
    rw [Function.update_of_ne, hj]
    intro hjt
    rw [hjt, hwork] at hj
    exact hne (Option.some.inj hj).symm

end

/-! ## Deadlock -/

section
variable {s : NestShared n} {f : Fin n ⊕ ε → NestPc}

/-- Where every worker that runs a task is blocked, a task that is not done is queued, or a worker
waits for one that is. -/
theorem NestInv.exists_queued (hI : NestInv s f)
    (hblocked : ∀ i task, (f (.inl i)).task = some task → (f (.inl i)).Blocked s) {task : ℕ}
    (hlt : task < s.spawned) (hdone : s.done task = false) :
    ∃ handle ∈ s.handles, handle = task ∨ ∃ i, handle ∈ (f (.inl i)).awaited := by
  -- a worker that runs the task waits for one that was spawned later
  induction hk : s.spawned - task using Nat.strong_induction_on generalizing task with
  | _ k ih =>
    rcases hI.placed task hlt hdone with hq | ⟨i, hi⟩
    · exact ⟨task, hq, .inl rfl⟩
    · obtain ⟨later, hawaited, hlater⟩ := hblocked i task hi
      have hknown : later ∈ (f (.inl i)).known := by
        cases hm : f (.inl i) with
        | park => rw [hm] at hawaited; exact List.mem_append_right _ hawaited
        | _ => rw [hm] at hawaited; cases hawaited
      have hlt' := (hI.ordered (.inl i)).known_lt later hknown
      have horder := (hI.ordered (.inl i)).task_lt_known task hi later hknown
      obtain ⟨handle, hq, hhandle⟩ := ih (s.spawned - later) (by omega) hlt' hlater rfl
      refine ⟨handle, hq, .inr ?_⟩
      rcases hhandle with rfl | hhandle
      · exact ⟨i, hawaited⟩
      · exact hhandle

/-- Every worker is blocked in the park loop of a call while a handle that one of them waits for is
still queued. -/
def Deadlocked (c : NestConfig n ε) : Prop :=
  (∀ i, (c.loc (.inl i)).Blocked c.shared) ∧
    ∃ i, ∃ handle ∈ (c.loc (.inl i)).awaited, c.shared.Queued handle

/-- If all workers are blocked, such a handle is queued. -/
theorem NestInv.deadlocked (hI : NestInv s f) (i : Fin n)
    (hall : ∀ i, (f (.inl i)).Blocked s) : Deadlocked ⟨s, f⟩ := by
  refine ⟨hall, ?_⟩
  obtain ⟨task, hawaited, hdone⟩ := hall i
  have hknown : task ∈ (f (.inl i)).known := by
    cases hm : f (.inl i) with
    | park => rw [hm] at hawaited; exact List.mem_append_right _ hawaited
    | _ => rw [hm] at hawaited; cases hawaited
  obtain ⟨handle, hq, hhandle⟩ := hI.exists_queued (fun j _ _ => hall j)
    ((hI.ordered (.inl i)).known_lt task hknown) hdone
  rcases hhandle with rfl | ⟨j, hj⟩
  · exact ⟨i, handle, hawaited, NestShared.mem_handles.1 hq⟩
  · exact ⟨j, handle, hj, NestShared.mem_handles.1 hq⟩

/-- What a thread will wait for after the action, if it comes to a park loop by it. -/
def NestPc.parksOn : NestPc → NestAct n → Option (List ℕ)
  | .batch _ _ 0 chunks, .go => some chunks
  | .work _ _, .wait handle => some [handle]
  | _, _ => none

/-- A worker that comes to a park loop with something left to wait for leaves another worker that is
not blocked. -/
def leavesFree (c : NestConfig n ε) (a : (Fin n ⊕ ε) × NestAct n) : Prop :=
  ∀ i awaited, a.1 = .inl i → (c.loc (.inl i)).parksOn a.2 = some awaited →
    c.shared.allDone awaited = true ∨ ∃ j, j ≠ i ∧ ¬ (c.loc (.inl j)).Blocked c.shared

end

section
variable {s s' : NestShared n} {t : Fin n ⊕ ε} {m m' : NestPc} {a : NestAct n}

/-- A thread that is blocked after a step has come to a park loop by it. -/
theorem NestTrans.parksOn (h : NestTrans s t m a s' m') (hb : m'.Blocked s') :
    s' = s ∧ m.parksOn a = some m'.awaited := by
  obtain ⟨task, hmem, -⟩ := hb
  cases h with
  | wait | park => exact ⟨rfl, rfl⟩
  | _ => cases hmem

/-- A thread that comes to a park loop is in it after the step. -/
theorem NestTrans.of_parksOn {awaited : List ℕ} (h : NestTrans s t m a s' m')
    (hp : m.parksOn a = some awaited) : s' = s ∧ m'.awaited = awaited := by
  cases h with
  | wait | park => cases hp; exact ⟨rfl, rfl⟩
  | _ => cases hp

variable [DecidableEq ε]

/-- The invariant holds in every state reached. -/
theorem reachable_nestInv {c : NestConfig n ε} (h : (nestMachine n ε).Reachable anyStep c) :
    NestInv c.shared c.loc := by
  refine h.invariant (I := fun c => NestInv c.shared c.loc) .init ?_
  rintro c ⟨t, a⟩ c' hI - hst
  obtain ⟨s', m', hp, rfl⟩ := step_iff.1 hst
  exact hI.step (nestStep_trans hp)

/-- A list of tasks that are not all done. -/
theorem NestShared.not_allDone {tasks : List ℕ} :
    s.allDone tasks ≠ true ↔ ∃ task ∈ tasks, s.done task = false := by
  rw [NestShared.allDone, Ne, List.all_eq_true]
  push Not
  simp only [ne_eq, Bool.not_eq_true]

/-- A step leads from a state that is not deadlocked to another one exactly when the worker that
parks by it, if one does, leaves another worker that is not blocked. -/
theorem NestInv.step_deadlocked {c c' : NestConfig n ε} {a : (Fin n ⊕ ε) × NestAct n}
    (hI : NestInv c.shared c.loc) (hno : ¬ Deadlocked c)
    (hst : (nestMachine n ε).step c a = some c') : ¬ Deadlocked c' ↔ leavesFree c a := by
  obtain ⟨t, a⟩ := a
  obtain ⟨s', m', hp, rfl⟩ := step_iff.1 hst
  have ht : NestTrans c.shared t (c.loc t) a s' m' := nestStep_trans hp
  have hI' : NestInv s' (Function.update c.loc t m') := hI.step ht
  constructor
  · rintro hno' i awaited rfl hparks
    obtain ⟨rfl, hawaited⟩ := ht.of_parksOn hparks
    by_contra hstuck
    rw [not_or] at hstuck
    obtain ⟨hleft, hothers⟩ := hstuck
    refine hno' (hI'.deadlocked i fun j => ?_)
    by_cases hj : j = i
    · subst hj
      rw [Function.update_self, NestPc.Blocked, hawaited]
      exact NestShared.not_allDone.1 hleft
    · rw [Function.update_of_ne (Sum.inl_injective.ne hj)]
      exact by_contra fun hfree => hothers ⟨j, hj, hfree⟩
  · rintro hfree ⟨hall, i₀, -⟩
    change ∀ i, (Function.update c.loc t m' (.inl i)).Blocked s' at hall
    cases t with
    | inl i =>
      have hb : m'.Blocked s' := by
        have hi := hall i
        rwa [Function.update_self] at hi
      obtain ⟨rfl, hparks⟩ := ht.parksOn hb
      rcases hfree i _ rfl hparks with hdone | ⟨j, hj, hjfree⟩
      · exact NestShared.not_allDone.2 hb hdone
      · have hjb := hall j
        rw [Function.update_of_ne (Sum.inl_injective.ne hj)] at hjb
        exact hjfree hjb
    | inr e =>
      refine hno (hI.deadlocked i₀ fun i => ?_)
      obtain ⟨task, hawaited, hdone⟩ := hall i
      rw [Function.update_of_ne Sum.inl_ne_inr] at hawaited
      refine ⟨task, hawaited, ?_⟩
      rcases ht.frame with ⟨-, -, hd, -, -⟩ | ⟨-, -, hd, -, -⟩ | ⟨_, -, -, -, -, -, _, he⟩ |
        ⟨x, mine, hwork, -⟩
      · rwa [hd] at hdone
      · rwa [hd] at hdone
      · cases he
      · have hforeign := hI.foreign e
        rw [hwork] at hforeign
        cases hforeign

end

/-! ## Calls complete while a worker is free -/

/-- How much a thread has still to do, if it makes no more calls. -/
def NestPc.weight : NestPc → ℕ
  | .free => 0
  | .work _ _ => 1
  | .park _ _ _ => 2
  | .batch _ _ left _ => 3 + 3 * left

/-- How much there is to do for the handles that are queued. -/
def NestShared.weight (s : NestShared n) : ℕ := 2 * s.handles.card

/-- An action by which code makes no call. -/
def NestAct.quiet : NestAct n → Bool
  | .go | .take _ _ => true
  | _ => false

section
variable {s s' : NestShared n} {f : Fin n ⊕ ε → NestPc} {t : Fin n ⊕ ε} {m m' : NestPc}
  {a : NestAct n}

/-- Such an action brings the pool nearer to rest. -/
theorem NestTrans.weight_lt (h : NestTrans s t m a s' m') (ha : a.quiet = true) :
    s'.weight + m'.weight < s.weight + m.weight := by
  cases h with
  | take htake =>
    have hcard := congrArg Multiset.card (NestShared.handles_take htake).1
    rw [Multiset.card_add, Multiset.card_singleton] at hcard
    simp only [NestShared.weight, NestPc.weight]
    omega
  | finish => exact Nat.lt_succ_self _
  | chunk =>
    have hcard := congrArg Multiset.card (s.handles_spawn t)
    rw [Multiset.card_add, Multiset.card_singleton] at hcard
    simp only [NestShared.weight, NestPc.weight]
    omega
  | park | «return» => exact Nat.lt_succ_self _
  | _ => cases ha

/-- A thread that is in no call comes to none by such an action. -/
theorem NestTrans.inCall (h : NestTrans s t m a s' m') (ha : a.quiet = true)
    (hm : m.inCall = false) : m'.inCall = false := by
  cases h with
  | take | finish | «return» => rfl
  | park | chunk => cases hm
  | _ => cases ha

/-- While a handle is queued, a worker can take one. -/
theorem NestShared.exists_take (i : Fin n) {handle : ℕ} (h : handle ∈ s.handles) :
    ∃ source task s', s.take i 0 source = some (task, s') := by
  rcases mem_handles.1 h with hq | ⟨j, hq⟩
  · obtain ⟨task, rest, hcons⟩ := List.exists_cons_of_ne_nil (List.ne_nil_of_mem hq)
    exact ⟨.injector, task, _, by simp only [take, hcons]; rfl⟩
  · obtain ⟨task, rest, hcons⟩ := List.exists_cons_of_ne_nil (List.ne_nil_of_mem hq)
    by_cases hji : j = i
    · subst hji
      exact ⟨.local, task, _, by simp only [take, hcons]; rfl⟩
    · exact ⟨.peer j, task, _, by simp only [take, if_neg hji, hcons]; rfl⟩

/-- A worker that runs a task and is not blocked can go on. -/
theorem exists_go {task : ℕ} (htask : m.task = some task) (hfree : ¬ m.Blocked s) :
    ∃ s' m', nestStep t s m .go = some (s', m') := by
  cases m with
  | free => cases htask
  | work running mine =>
    obtain rfl : running = some task := htask
    exact ⟨_, _, rfl⟩
  | batch running mine left chunks =>
    cases left with
    | zero => exact ⟨_, _, rfl⟩
    | succ left => exact ⟨_, _, rfl⟩
  | park running mine awaited =>
    have hdone : s.allDone awaited = true :=
      not_not.1 fun hleft => hfree (NestShared.not_allDone.1 hleft)
    exact ⟨s, .work running mine, if_pos hdone⟩

/-- While a worker is in no call and a thread is blocked, another thread can go on or take a
handle. -/
theorem NestInv.exists_step (hI : NestInv s f) {w : Fin n} (hw : (f (.inl w)).inCall = false)
    (ht : (f t).Blocked s) :
    ∃ i a s' m', a.quiet = true ∧ nestStep (ε := ε) (.inl i) s (f (.inl i)) a = some (s', m') := by
  by_cases hgo : ∃ i task, (f (.inl i)).task = some task ∧ ¬ (f (.inl i)).Blocked s
  · obtain ⟨i, task, htask, hfree⟩ := hgo
    obtain ⟨s', m', hp⟩ := exists_go (t := .inl i) htask hfree
    exact ⟨i, .go, s', m', rfl, hp⟩
  push Not at hgo
  obtain ⟨task, hawaited, hdone⟩ := ht
  have hknown : task ∈ (f t).known := by
    cases hm : f t with
    | park => rw [hm] at hawaited; exact List.mem_append_right _ hawaited
    | _ => rw [hm] at hawaited; cases hawaited
  obtain ⟨handle, hq, -⟩ := hI.exists_queued hgo ((hI.ordered t).known_lt task hknown) hdone
  have hfree : f (.inl w) = .free := by
    refine hI.worker w ?_
    cases htask : (f (.inl w)).task with
    | none => rfl
    | some x =>
      obtain ⟨y, hy, -⟩ := hgo w x htask
      cases hm : f (.inl w) with
      | park => rw [hm] at hw; cases hw
      | _ => rw [hm] at hy; cases hy
  obtain ⟨source, x, s', htake⟩ := NestShared.exists_take w hq
  refine ⟨w, .take source 0, s', .work (some x) [], rfl, ?_⟩
  rw [hfree]
  exact congrArg (Option.map _) htake

variable [DecidableEq ε] [Fintype ε]

/-- While a worker is in no call, a call that waits can return. -/
theorem NestInv.can_return {c : NestConfig n ε} (hI : NestInv c.shared c.loc) {w : Fin n}
    (hw : (c.loc (.inl w)).inCall = false) {task : Option ℕ} {mine awaited : List ℕ}
    (ht : c.loc t = .park task mine awaited) :
    ∃ c', (nestMachine n ε).Reach anyStep c c' ∧ c'.loc t = .work task mine := by
  induction hk : total NestShared.weight NestPc.weight c using Nat.strong_induction_on
    generalizing c with
  | _ k ih =>
    by_cases hdone : c.shared.allDone awaited = true
    · have hp : nestStep t c.shared (c.loc t) .go = some (c.shared, .work task mine) := by
        rw [ht]
        exact if_pos hdone
      exact ⟨_, .single (a := (t, .go)) trivial (step_iff.2 ⟨_, _, hp, rfl⟩),
        Function.update_self ..⟩
    have hblocked : (c.loc t).Blocked c.shared := by
      rw [ht]
      exact NestShared.not_allDone.1 hdone
    obtain ⟨i, a, s', m', ha, hp⟩ := hI.exists_step hw hblocked
    have htrans := nestStep_trans hp
    have hne : t ≠ .inl i := by
      rintro rfl
      rw [ht] at htrans
      cases htrans with
      | «return» hd => exact hdone hd
    have hlt : total NestShared.weight NestPc.weight
        ⟨s', Function.update c.loc (.inl i) m'⟩ < k := by
      have hweight := htrans.weight_lt ha
      rw [← hk, total_update, total_split NestShared.weight NestPc.weight c (.inl i)]
      exact Nat.add_lt_add_right hweight _
    have hw' : (Function.update c.loc (.inl i) m' (.inl w)).inCall = false := by
      by_cases hwi : w = i
      · subst hwi
        rw [Function.update_self]
        exact htrans.inCall ha hw
      · rw [Function.update_of_ne (Sum.inl_injective.ne hwi)]
        exact hw
    have ht' : Function.update c.loc (.inl i) m' t = .park task mine awaited :=
      (Function.update_of_ne hne ..).trans ht
    obtain ⟨c', hreach, hc'⟩ := ih _ hlt (c := ⟨s', Function.update c.loc (.inl i) m'⟩)
      (hI.step htrans) hw' ht' rfl
    have hst : (nestMachine n ε).step c (.inl i, a) =
        some ⟨s', Function.update c.loc (.inl i) m'⟩ := step_iff.2 ⟨s', m', hp, rfl⟩
    exact ⟨c', (Reach.single trivial hst).trans hreach, hc'⟩

end

/-! ## The pool -/

/-- Along a run, the pool is never deadlocked if and only if each worker that comes to a park loop
with something left to wait for leaves another worker that is not blocked. While some worker is in
no blocking call, every call that waits can return. -/
theorem nested_calls_deadlock_iff (n : ℕ) (ε : Type) [DecidableEq ε] [Fintype ε] :
    (∀ as, (nestMachine n ε).AllStates (fun c => ¬ Deadlocked c) (nestStart n ε) as ↔
      (nestMachine n ε).AllSteps leavesFree (nestStart n ε) as) ∧
    ∀ c, (nestMachine n ε).Reachable anyStep c → (∃ w, (c.loc (.inl w)).inCall = false) →
      ∀ t task mine awaited, c.loc t = .park task mine awaited →
        ∃ c', (nestMachine n ε).Reach anyStep c c' ∧ c'.loc t = .work task mine := by
  constructor
  · intro as
    refine allStates_iff_allSteps (I := fun c => NestInv c.shared c.loc) ?_ ?_ .init ?_
    · rintro c ⟨t, a⟩ c' hI hst
      obtain ⟨s', m', hp, rfl⟩ := step_iff.1 hst
      exact hI.step (nestStep_trans hp)
    · exact fun c a c' hI hno hst => hI.step_deadlocked hno hst
    · rintro ⟨-, i, handle, hawaited, -⟩
      cases hawaited
  · rintro c hc ⟨w, hw⟩ t task mine awaited ht
    exact (reachable_nestInv hc).can_return hw ht

/-- The worker of a pool that has one takes the task of another thread, whose work function makes a
batch call with one chunk. -/
def nestedCallRun : List ((Fin 1 ⊕ Unit) × NestAct 1) :=
  [(.inr (), .spawn), (.inl ⟨0, Nat.one_pos⟩, .take .injector 0),
    (.inl ⟨0, Nat.one_pos⟩, .batchSpawn 1), (.inl ⟨0, Nat.one_pos⟩, .go),
    (.inl ⟨0, Nat.one_pos⟩, .go)]

/-- After that run the pool is deadlocked. -/
theorem nested_call_deadlocks :
    ∃ c, (nestMachine 1 Unit).run (nestStart 1 Unit) nestedCallRun = some c ∧ Deadlocked c := by
  refine ⟨_, rfl, fun i => ?_, ⟨0, Nat.one_pos⟩, 1, List.mem_singleton_self 1, .inr
    ⟨⟨0, Nat.one_pos⟩, List.mem_singleton_self 1⟩⟩
  obtain rfl := Subsingleton.elim ⟨0, Nat.one_pos⟩ i
  exact ⟨1, List.mem_singleton_self 1, rfl⟩

end Hypertile
