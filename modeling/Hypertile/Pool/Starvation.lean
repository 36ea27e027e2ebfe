import Hypertile.Pool.Affinity

/-!
# `run_loop` does not ignore the injector

A call of `run_loop` of a worker, among all that goes on around it: the other threads change the
queues, and the code of the task that it runs can register workers, queue tasks, and call the
methods of any worker, this one included. A worker is used by one thread, as its `Parker` is not
`Sync`, so that only this thread advances its `tick` (`during`).

The drain that follows a task leaves the `tick` as it is, so a call of `find_task` stands for 17
tasks at most: the one that it finds and 16 from the local deque. Of 64 calls one begins with the
injector, also across the wrap of the `tick`, as 64 divides `2 ^ 64`. What carries the result is how
many tasks the call can have run since the worker last tried the injector, at each place and `tick`
(`WorkerPc.sinceAttempt`): this is a potential, which pays for each task that the call begins to run
(`injector_never_ignored`).
-/

namespace Hypertile.Affinity

open Machine Machine.Threads

variable {H : Type}

/-! ## The tasks and the attempts of a call -/

/-- The next attempt to get a task is one to steal from the injector. -/
def WorkerPc.triesInjector : WorkerPc H → Bool
  | .find _ .injectorFirst | .find _ .injector | .find _ .injectorAgain => true
  | .spin _ _ true | .doubleCheck _ => true
  | _ => false

/-- The call runs a task. -/
def WorkerPc.running : WorkerPc H → Bool
  | .run _ _ => true
  | _ => false

section
variable {ι : Type}

/-- The call of thread `i` with `n` calls below it runs a task. -/
def runsTask (i : ι) (n : ℕ) (c : WorkerConfig H ι) : Bool :=
  (c.loc i).calls.reverse[n]?.any fun call => call.pc.running

/-- How many tasks this call begins to run in a step. -/
def beginsTask (i : ι) (n : ℕ) (c : WorkerConfig H ι) (_ : ι × WorkerAct H)
    (c' : WorkerConfig H ι) : ℕ :=
  (!runsTask i n c && runsTask i n c').toNat

/-- The step is an attempt of the worker to steal from the injector, in the innermost call of thread
`i`. -/
def triesInjector (i : ι) (w : Registration Unit) (c : WorkerConfig H ι) (a : ι × WorkerAct H) :
    Prop :=
  a.1 = i ∧ ∃ call ∈ (c.loc i).calls.head?, call.worker.deque = w.deque ∧
    call.pc.triesInjector = true

/-- The call of thread `i` with `n` calls below it does not return, and no other thread uses its
worker. -/
def during (i : ι) (w : Registration Unit) (n : ℕ) (c : WorkerConfig H ι) (a : ι × WorkerAct H) :
    Prop :=
  (a.1 = i → (c.loc i).calls.length = n + 1 →
    ∀ call ∈ (c.loc i).calls.head?, call.pc ≠ .leave) ∧
  (a.1 ≠ i → ∀ call ∈ (c.loc a.1).calls.head?, call.worker.deque ≠ w.deque)

end

/-! ## The tasks since the last attempt -/

/-- How many calls of `find_task` there are up to the last one, from the last one that began with
the injector, where the next one reads this `tick`. -/
def findsSince (tick : ℕ) : ℕ := (tick + 63) % 64 + 1

/-- How many tasks the call can have begun to run since its last attempt at the injector, at its
place, where the next call of `find_task` reads this `tick`. -/
def WorkerPc.sinceAttempt (tick : ℕ) : WorkerPc H → ℕ
  | .begin _ => 17 * findsSince tick
  | .find _ .injectorFirst => 17 * 64
  | .find _ _ | .spin _ _ _ | .doubleCheck _ => 17 * (findsSince tick - 1)
  | .run _ resume => resume.sinceAttempt tick
  -- the task that was found, and those of the drain
  | .batch _ count => 17 * (findsSince tick - 1) + min (count + 1) 17
  | .leave => 17 * 64

attribute [local grind =] WorkerPc.sinceAttempt

/-- Of 64 calls one begins with the injector. -/
theorem findsSince_le (tick : ℕ) : findsSince tick ≤ 64 :=
  Nat.succ_le_of_lt (Nat.mod_lt _ (by decide))

/-- A call that does not begin with the injector is one more, also where the `tick` wraps. -/
theorem findsSince_succ {tick : ℕ} (h : tick % 64 ≠ 0) :
    findsSince ((tick + 1) % 2 ^ 64) = findsSince tick + 1 := by
  unfold findsSince
  omega

/-- At no place there are more than 64 times 17. -/
theorem WorkerPc.sinceAttempt_le (tick : ℕ) (pc : WorkerPc H) :
    pc.sinceAttempt tick ≤ 64 * 17 := by
  have hfinds := findsSince_le tick
  induction pc with
  | run task resume ih => exact ih
  | find m fpc => cases fpc <;> simp only [sinceAttempt] <;> omega
  | _ => simp only [sinceAttempt]; omega

/-- The more calls of `find_task` there are up to the last one, the more tasks there can be. -/
theorem WorkerPc.sinceAttempt_mono {tick tick' : ℕ} (h : findsSince tick ≤ findsSince tick')
    (pc : WorkerPc H) : pc.sinceAttempt tick ≤ pc.sinceAttempt tick' := by
  induction pc with
  | run task resume ih => exact ih
  | find m fpc => cases fpc <;> simp only [sinceAttempt] <;> omega
  | _ => simp only [sinceAttempt]; omega

/-! ## One step of a call -/

section
variable {taskKind : H → TaskKind} {s s' : KindedPool H} {slot : Slot} {w : Registration Unit}
  {kind : WorkerKind} {pc pc' : WorkerPc H} {a : WorkerAct H}

/-- What the call has begun to run since its last attempt, if its next one is a new attempt. -/
def WorkerPc.carries (tick : ℕ) (pc : WorkerPc H) : ℕ :=
  if pc.triesInjector then 0 else pc.sinceAttempt tick

/-- An attempt to get a task leaves the ticks. -/
theorem KindedPool.fetch_tick {source : Source Unit} {ch : Choice} {r : Steal H}
    (h : s.fetch slot source ch = (s', r)) : s'.tick = s.tick := by
  obtain ⟨p', rfl, -⟩ := KindedPool.fetch_eq h
  rfl

/-- So does one between two calls of `find_task`. -/
theorem KindedPool.attempt_tick {source : Source Unit} {ch : Choice}
    {resume otherwise : WorkerPc H}
    (h : s.attempt slot source ch resume otherwise = (s', pc')) : s'.tick = s.tick := by
  unfold KindedPool.attempt at h
  cases hf : s.fetch slot source ch with
  | mk q r =>
    rw [hf] at h
    have htick := KindedPool.fetch_tick hf
    cases r with
    | success | empty | retry => cases h; exact htick

/-- It allows for the task that it gives. -/
theorem attempt_sinceAttempt {source : Source Unit} {ch : Choice} {resume otherwise : WorkerPc H}
    {tick k : ℕ} (hresume : k + 1 ≤ resume.sinceAttempt tick)
    (hother : k ≤ otherwise.sinceAttempt tick) (hrunning : otherwise.running = false)
    (h : s.attempt slot source ch resume otherwise = (s', pc')) :
    k + pc'.running.toNat ≤ pc'.sinceAttempt tick := by
  unfold KindedPool.attempt at h
  cases hf : s.fetch slot source ch with
  | mk q r =>
    rw [hf] at h
    cases r with
    | success task => cases h; exact hresume
    | empty | retry =>
      cases h
      rw [hrunning]
      exact hother

/-- A call of `find_task` has seen no more tasks than the calls before it. -/
theorem carries_find (tick : ℕ) (m : Method) (fpc : FindPc WorkerEntry) :
    (WorkerPc.find (H := H) m fpc).carries tick ≤ 17 * (findsSince tick - 1) := by
  cases fpc <;> simp [WorkerPc.carries, WorkerPc.triesInjector, WorkerPc.sinceAttempt]

/-- It allows for that many at each of its places. -/
theorem le_sinceAttempt_find (tick : ℕ) (m : Method) (fpc : FindPc WorkerEntry) :
    17 * (findsSince tick - 1) ≤ (WorkerPc.find (H := H) m fpc).sinceAttempt tick := by
  have hfinds := findsSince_le tick
  cases fpc <;> simp only [WorkerPc.sinceAttempt] <;> omega

/-- Where the call goes on with a task, it allows for one more. -/
theorem lt_sinceAttempt_found (tick : ℕ) (m : Method) (task : H) (k : TaskKind) :
    17 * (findsSince tick - 1) < (m.found kind task k).sinceAttempt tick := by
  have hfinds := findsSince_le tick
  have hpos : 0 < findsSince tick := Nat.succ_pos _
  cases m <;> simp only [Method.found, WorkerPc.sinceAttempt] <;> omega

/-- Where it goes on without one, it allows for as many. -/
theorem le_sinceAttempt_notFound (tick : ℕ) (m : Method) :
    17 * (findsSince tick - 1) ≤ (m.notFound : WorkerPc H).sinceAttempt tick := by
  have hfinds := findsSince_le tick
  cases m <;> simp only [Method.notFound, WorkerPc.sinceAttempt] <;> omega

/-- A step of `find_task` leaves the ticks, and allows for the task that it finds. -/
theorem findStep_sinceAttempt {m : Method} {fpc : FindPc WorkerEntry} (tick : ℕ)
    (h : findStep taskKind s slot w kind m fpc a = some (s', pc')) : s'.tick = s.tick ∧
      17 * (findsSince tick - 1) + pc'.running.toNat ≤ pc'.sinceAttempt tick := by
  have hfound : ∀ (task : H) (k : TaskKind), 17 * (findsSince tick - 1) +
      (m.found kind task k).running.toNat ≤ (m.found kind task k).sinceAttempt tick := by
    intro task k
    have hrunning : (m.found kind task k).running = true := by cases m <;> rfl
    rw [hrunning]
    exact lt_sinceAttempt_found tick m task k
  have hnone : 17 * (findsSince tick - 1) + (m.notFound : WorkerPc H).running.toNat ≤
      (m.notFound : WorkerPc H).sinceAttempt tick := by
    have hrunning : (m.notFound : WorkerPc H).running = false := by cases m <;> rfl
    rw [hrunning]
    exact le_sinceAttempt_notFound tick m
  cases a with
  | attempt ch =>
    obtain ⟨source, -, h⟩ := Option.map_eq_some_iff.1 h
    cases hf : s.fetch slot source ch with
    | mk q r =>
      rw [hf] at h
      have htick := KindedPool.fetch_tick hf
      cases r with
      | success task => cases h; exact ⟨htick, hfound _ _⟩
      | empty | retry => cases h; exact ⟨htick, le_sinceAttempt_find ..⟩
  | victim peer =>
    cases fpc with
    | stealers =>
      simp only [findStep, Option.some.injEq, Prod.mk.injEq] at h
      obtain ⟨rfl, rfl⟩ := h
      refine ⟨rfl, ?_⟩
      split
      · exact le_sinceAttempt_find ..
      · exact hnone
    | _ => cases h
  | go =>
    cases fpc with
    | peers left =>
      cases left with
      | nil => cases h; exact ⟨rfl, hnone⟩
      | cons peer rest =>
        simp only [findStep] at h
        split at h
        · cases h; exact ⟨rfl, le_sinceAttempt_find ..⟩
        · cases h
    | _ => cases h
  | _ => cases h

/-- The next call of `find_task` allows for no more tasks than the calls before it had. -/
theorem sinceAttempt_begin (tick : ℕ) (m : Method) :
    (WorkerPc.begin (H := H) m).sinceAttempt tick ≤ (WorkerPc.find (H := H) m
      (if tick % 64 = 0 then .injectorFirst else .localDeque)).sinceAttempt
        ((tick + 1) % 2 ^ 64) := by
  show 17 * findsSince tick ≤ _
  split
  · exact Nat.mul_le_mul_left 17 (findsSince_le tick)
  · next hne =>
    show _ ≤ 17 * (findsSince _ - 1)
    rw [findsSince_succ hne, Nat.add_sub_cancel]

/-- A step of a call allows for the task that it begins to run. -/
theorem callStep_sinceAttempt (h : callStep taskKind s slot w kind pc a = some (s', pc')) :
    pc.carries (s.tick w.deque) + pc'.running.toNat ≤ pc'.sinceAttempt (s'.tick w.deque) := by
  have hfinds := findsSince_le (s.tick w.deque)
  have hpos : 0 < findsSince (s.tick w.deque) := Nat.succ_pos _
  cases callStep_cases h with
  | begin m =>
    simp only [Function.update_self]
    exact sinceAttempt_begin (s.tick w.deque) m
  | quit => exact Nat.mul_le_mul_left 17 hfinds
  | find h =>
    obtain ⟨htick, hle⟩ := findStep_sinceAttempt (s.tick w.deque) h
    rw [htick]
    exact (Nat.add_le_add_right (carries_find ..) _).trans hle
  | @drain b count _ _ hcount h =>
    -- a task of the drain, of which there are 16 at most
    have hbatch : (WorkerPc.batch (H := H) b count).carries (s.tick w.deque) =
        17 * (findsSince (s.tick w.deque) - 1) + min (count + 1) 17 := rfl
    rw [KindedPool.attempt_tick h]
    refine attempt_sinceAttempt ?_ ?_ rfl h
    · simp only [hbatch, WorkerPc.sinceAttempt]
      omega
    · simp only [hbatch, WorkerPc.sinceAttempt]
      omega
  | drained b count =>
    show 17 * (findsSince _ - 1) + min (count + 1) 17 ≤ 17 * findsSince _
    omega
  | spinLocal h =>
    rw [KindedPool.attempt_tick h]
    refine attempt_sinceAttempt (k := 17 * (findsSince (s.tick w.deque) - 1)) ?_ le_rfl rfl h
    simp only [WorkerPc.sinceAttempt]
    omega
  | spinInjector h =>
    rw [KindedPool.attempt_tick h]
    refine attempt_sinceAttempt (k := 0) ?_ (Nat.zero_le _) (by split <;> rfl) h
    simp only [WorkerPc.sinceAttempt]
    omega
  | doubleCheck h =>
    rw [KindedPool.attempt_tick h]
    refine attempt_sinceAttempt (k := 0) ?_ (Nat.zero_le _) rfl h
    simp only [WorkerPc.sinceAttempt]
    omega

/-- A step of a call leaves each `tick`, or it is that of its worker, and the call begins with the
injector, or it is one call of `find_task` more. -/
theorem callStep_tick (d : DequeId)
    (h : callStep taskKind s slot w kind pc a = some (s', pc')) : s'.tick d = s.tick d ∨
      d = w.deque ∧ ((∃ m, pc' = .find m .injectorFirst) ∨
        findsSince (s.tick d) ≤ findsSince (s'.tick d)) := by
  cases callStep_cases h with
  | begin m =>
    by_cases hd : d = w.deque
    · subst hd
      refine .inr ⟨rfl, ?_⟩
      split
      · exact .inl ⟨m, rfl⟩
      · next hne =>
        right
        simp only [Function.update_self]
        rw [findsSince_succ hne]
        exact Nat.le_succ _
    · exact .inl (Function.update_of_ne hd ..)
  | quit | drained => exact .inl rfl
  | find h => exact .inl (congrFun (findStep_sinceAttempt 0 h).1 d)
  | drain _ h | spinLocal h | spinInjector h | doubleCheck h =>
    exact .inl (congrFun (KindedPool.attempt_tick h) d)

end

/-! ## One step of a thread -/

/-- What a step of a thread does to its calls: the code of the user goes on, with a new call at
most, `run` of a task ends, a call returns, or the innermost call takes a step. -/
inductive StackTrans (taskKind : H → TaskKind) (s : KindedPool H) (l : WorkerThread H)
    (a : WorkerAct H) : KindedPool H → WorkerThread H → Prop
  | user {s' : KindedPool H} {u : PoolThread Unit H} (htick : s'.tick = s.tick)
      (hrunning : l.pool.pc = .idle → ∀ call ∈ l.calls.head?, call.pc.running = true) :
      StackTrans taskKind s l a s' ⟨u, l.calls⟩
  | call {w : Registration Unit} {kind : WorkerKind} {m : Method} (hidle : l.pool.pc = .idle)
      (hrunning : ∀ call ∈ l.calls.head?, call.pc.running = true) :
      StackTrans taskKind s l a s ⟨l.pool, ⟨w, kind, .begin m⟩ :: l.calls⟩
  | done {call : Call H} {rest : List (Call H)} {task : H} {resume : WorkerPc H}
      (hidle : l.pool.pc = .idle) (hcalls : l.calls = call :: rest)
      (hpc : call.pc = .run task resume) :
      StackTrans taskKind s l a s ⟨l.pool, { call with pc := resume } :: rest⟩
  | leave {call : Call H} {rest : List (Call H)} (hidle : l.pool.pc = .idle)
      (hcalls : l.calls = call :: rest) (hpc : call.pc = .leave) :
      StackTrans taskKind s l a s ⟨l.pool, rest⟩
  | step {s' : KindedPool H} {call : Call H} {rest : List (Call H)} {pc : WorkerPc H}
      (hidle : l.pool.pc = .idle) (hcalls : l.calls = call :: rest)
      (hstep : callStep taskKind s l.pool.slot call.worker call.kind call.pc a = some (s', pc)) :
      StackTrans taskKind s l a s' ⟨l.pool, { call with pc := pc } :: rest⟩

section
variable {taskKind : H → TaskKind} {s s' : KindedPool H} {l l' : WorkerThread H} {a : WorkerAct H}

/-- The code of the user leaves the ticks, and calls one method at most. -/
theorem userStep_stackTrans (hidle : l.pool.pc = .idle)
    (hrunning : ∀ call ∈ l.calls.head?, call.pc.running = true)
    (h : userStep s l a = some (s', l')) : StackTrans taskKind s l a s' l' := by
  have hbegin : ∀ {s₁ : KindedPool H} {op : PoolLabel Unit H}, s₁.begin l op = some (s', l') →
      s₁.tick = s.tick → StackTrans taskKind s l a s' l' := by
    intro s₁ op hop htick
    obtain ⟨r, -, he⟩ := Option.map_eq_some_iff.1 hop
    cases he
    exact .user htick fun _ => hrunning
  have hcall : ∀ {w : Registration Unit} {m : Method}, s.call l w m = some (s', l') →
      StackTrans taskKind s l a s' l' := by
    intro w m hop
    unfold KindedPool.call at hop
    split at hop
    · obtain ⟨kind, -, he⟩ := Option.map_eq_some_iff.1 hop
      cases he
      exact .call hidle hrunning
    · cases hop
  cases a with
  | inject | handOff | register | dropGuard | shutdown => exact hbegin h rfl
  | runLoop | runUntilIdle | runOne => exact hcall h
  | _ => cases h

/-- Every step of a thread is one of these. -/
theorem workerStep_stackTrans (h : workerStep taskKind s l a = some (s', l')) :
    StackTrans taskKind s l a s' l' := by
  unfold workerStep at h
  split at h
  · next hidle =>
    unfold programStep at h
    split at h
    · next hcalls => exact userStep_stackTrans hidle (by simp [hcalls]) h
    · next call rest hcalls =>
      split at h
      · next task resume hpc =>
        split at h
        · cases h
          exact .done hidle hcalls hpc
        · exact userStep_stackTrans hidle (by simp [hcalls, hpc, WorkerPc.running]) h
      · next hpc =>
        split at h
        · cases h
          exact .leave hidle hcalls hpc
        · cases h
      · obtain ⟨r, hstep, he⟩ := Option.map_eq_some_iff.1 h
        cases he
        exact .step hidle hcalls hstep
  · next hbusy =>
    split at h
    · obtain ⟨r, -, he⟩ := Option.map_eq_some_iff.1 h
      cases he
      exact .user rfl fun hidle => absurd hidle hbusy
    · cases h

/-- A step of a thread whose innermost call is of another worker leaves the `tick` of this one. -/
theorem StackTrans.tick_eq {d : DequeId} (h : StackTrans taskKind s l a s' l')
    (hother : ∀ call ∈ l.calls.head?, call.worker.deque ≠ d) : s'.tick d = s.tick d := by
  cases h with
  | user htick => rw [htick]
  | call | done | leave => rfl
  | step _ hcalls hstep =>
    rcases callStep_tick d hstep with hsame | ⟨rfl, -⟩
    · exact hsame
    · exact absurd rfl (hother _ (by simp [hcalls]))

end

/-! ## Any run of the call -/

/-- A call of the worker is about to try the injector before all else. -/
def Call.TriesFirst (w : Registration Unit) (call : Call H) : Prop :=
  call.worker.deque = w.deque ∧ ∃ m, call.pc = .find m .injectorFirst

/-- A call at `pc`, with the calls `inner` above it, can have begun to run `k` tasks since the last
attempt of its worker at the injector: its place allows for them, or a call above it is about to
make the next attempt. -/
def Allows (w : Registration Unit) (tick : ℕ) (inner : List (Call H)) (pc : WorkerPc H) (k : ℕ) :
    Prop :=
  k ≤ pc.sinceAttempt tick ∨ k ≤ 64 * 17 ∧ ∃ call ∈ inner.head?, call.TriesFirst w

/-- A thread is in the call of the worker, at `pc`, with the calls `inner` above it and `rest` below
it. All calls but the innermost run a task, and so does that one in an operation of the pool. -/
structure InLoop (w : Registration Unit) (kind : WorkerKind) (rest : List (Call H))
    (l : WorkerThread H) (inner : List (Call H)) (pc : WorkerPc H) : Prop where
  calls : l.calls = inner ++ ⟨w, kind, pc⟩ :: rest
  running : inner ≠ [] → pc.running = true
  below : ∀ call ∈ inner.tail, call.pc.running = true
  busy : l.pool.pc ≠ .idle → ∀ call ∈ l.calls.head?, call.pc.running = true

section
variable {taskKind : H → TaskKind} {s s' : KindedPool H} {l l' : WorkerThread H} {a : WorkerAct H}
  {w : Registration Unit} {kind : WorkerKind} {rest inner more : List (Call H)} {top : Call H}
  {pc : WorkerPc H} {tick k : ℕ}

/-- At no place there are more than 64 times 17. -/
theorem Allows.le (h : Allows w tick inner pc k) : k ≤ 64 * 17 := by
  rcases h with hplace | ⟨hle, -⟩
  · exact hplace.trans (pc.sinceAttempt_le tick)
  · exact hle

/-- Below a call that runs a task the place of the call allows for them. -/
theorem Allows.of_running (h : Allows w tick inner pc k)
    (hrunning : ∀ call ∈ inner.head?, call.pc.running = true) : k ≤ pc.sinceAttempt tick := by
  rcases h with hplace | ⟨-, call, hmem, -, m, hfirst⟩
  · exact hplace
  · have hrun := hrunning call hmem
    rw [hfirst] at hrun
    cases hrun

/-- In an operation of the pool, and in the code of the user, the innermost call runs a task. -/
theorem InLoop.head_running (hin : InLoop w kind rest l inner pc)
    (hidle : l.pool.pc = .idle → ∀ call ∈ l.calls.head?, call.pc.running = true) :
    ∀ call ∈ l.calls.head?, call.pc.running = true := by
  by_cases h : l.pool.pc = .idle
  · exact hidle h
  · exact hin.busy h

/-- A step of the thread in a call above this one keeps what this one allows for, if it is no
attempt of the worker, and otherwise the count begins anew. -/
theorem InLoop.above (hin : InLoop w kind rest l (top :: more) pc)
    (h : StackTrans taskKind s l a s' l')
    (hk : Allows w (s.tick w.deque) (top :: more) pc k)
    (htries : top.worker.deque = w.deque → top.pc.triesInjector = true → k = 0) :
    ∃ inner', InLoop w kind rest l' inner' pc ∧ Allows w (s'.tick w.deque) inner' pc k := by
  have hrun : pc.running = true := hin.running nofun
  have hcalls : l.calls = top :: (more ++ ⟨w, kind, pc⟩ :: rest) := hin.calls
  have hplace : top.pc.running = true ∨ top.pc = .leave →
      k ≤ pc.sinceAttempt (s.tick w.deque) := by
    intro hpc
    rcases hk with hplace | ⟨-, call, hmem, -, m, hfirst⟩
    · exact hplace
    · cases hmem
      simp [hfirst, WorkerPc.running] at hpc
  cases h with
  | @user _ u htick hrunning =>
    refine ⟨top :: more, ⟨hin.calls, hin.running, hin.below, fun _ => ?_⟩, ?_⟩
    · exact hin.head_running hrunning
    · rw [htick]
      exact hk
  | @call v kind' m hidle hrunning =>
    have htop : top.pc.running = true := hrunning top (by simp [hcalls])
    refine ⟨⟨v, kind', .begin m⟩ :: top :: more, ⟨?_, fun _ => hrun, ?_, ?_⟩,
      .inl (hplace (.inl htop))⟩
    · simp [hcalls]
    · simpa [htop] using hin.below
    · exact fun hbusy => absurd hidle hbusy
  | @done call below task resume hidle hown hpc =>
    obtain ⟨rfl, rfl⟩ := List.cons.inj (hown.symm.trans hcalls)
    refine ⟨{ call with pc := resume } :: more, ⟨rfl, fun _ => hrun, hin.below, ?_⟩,
      .inl (hplace (.inl ?_))⟩
    · exact fun hbusy => absurd hidle hbusy
    · rw [hpc]
      rfl
  | @leave call below hidle hown hpc =>
    obtain ⟨rfl, rfl⟩ := List.cons.inj (hown.symm.trans hcalls)
    refine ⟨more, ⟨rfl, fun _ => hrun, ?_, ?_⟩, .inl (hplace (.inr hpc))⟩
    · exact fun call hmem => hin.below call (List.mem_of_mem_tail hmem)
    · exact fun hbusy => absurd hidle hbusy
  | @step _ call below pc' hidle hown hstep =>
    obtain ⟨rfl, rfl⟩ := List.cons.inj (hown.symm.trans hcalls)
    refine ⟨{ call with pc := pc' } :: more, ⟨rfl, fun _ => hrun, hin.below, ?_⟩, ?_⟩
    · exact fun hbusy => absurd hidle hbusy
    · rcases hk with hplace | ⟨-, top, hmem, hworker, m, hfirst⟩
      · rcases callStep_tick w.deque hstep with hsame | ⟨hworker, hnew | hmore⟩
        · rw [hsame]
          exact .inl hplace
        · exact .inr ⟨hplace.trans (pc.sinceAttempt_le _), _, rfl, hworker.symm, hnew⟩
        · exact .inl (hplace.trans (pc.sinceAttempt_mono hmore))
      · -- the worker makes an attempt
        cases hmem
        have hzero := htries hworker (by rw [hfirst]; rfl)
        exact .inl (hzero ▸ Nat.zero_le _)

/-- A step of the thread in the call itself allows for the task that the call begins to run, if it
is no attempt, and otherwise the count begins anew. -/
theorem InLoop.innermost (hin : InLoop w kind rest l [] pc) (hleave : pc ≠ .leave)
    (h : StackTrans taskKind s l a s' l') (hk : Allows w (s.tick w.deque) [] pc k)
    (htries : pc.triesInjector = true → k = 0) :
    ∃ inner' pc', InLoop w kind rest l' inner' pc' ∧
      Allows w (s'.tick w.deque) inner' pc' (k + (!pc.running && pc'.running).toNat) := by
  have hcalls : l.calls = ⟨w, kind, pc⟩ :: rest := hin.calls
  have hplace : k ≤ pc.sinceAttempt (s.tick w.deque) := hk.of_running nofun
  cases h with
  | @user _ u htick hrunning =>
    refine ⟨[], pc, ⟨hin.calls, nofun, nofun, fun _ => ?_⟩, .inl ?_⟩
    · exact hin.head_running hrunning
    · rw [htick]
      simpa using hplace
  | @call v kind' m hidle hrunning =>
    have hrun : pc.running = true := hrunning ⟨w, kind, pc⟩ (by simp [hcalls])
    refine ⟨[⟨v, kind', .begin m⟩], pc, ⟨?_, fun _ => hrun, nofun, ?_⟩, .inl ?_⟩
    · simp [hcalls]
    · exact fun hbusy => absurd hidle hbusy
    · simpa using hplace
  | @done call below task resume hidle hown hpc =>
    obtain ⟨rfl, rfl⟩ := List.cons.inj (hown.symm.trans hcalls)
    cases hpc
    refine ⟨[], resume, ⟨rfl, nofun, nofun, ?_⟩, .inl ?_⟩
    · exact fun hbusy => absurd hidle hbusy
    · exact hplace
  | @leave call below hidle hown hpc =>
    obtain ⟨rfl, rfl⟩ := List.cons.inj (hown.symm.trans hcalls)
    exact absurd hpc hleave
  | @step _ call below pc' hidle hown hstep =>
    obtain ⟨rfl, rfl⟩ := List.cons.inj (hown.symm.trans hcalls)
    refine ⟨[], pc', ⟨rfl, nofun, nofun, ?_⟩, .inl ?_⟩
    · exact fun hbusy => absurd hidle hbusy
    · have hstart : pc.running = false := by
        cases pc with
        | run => cases hstep
        | _ => rfl
      have hle := callStep_sinceAttempt hstep
      have hcarries : k ≤ pc.carries (s.tick w.deque) := by
        unfold WorkerPc.carries
        split
        · next hattempt => exact (htries hattempt).le
        · exact hplace
      rw [hstart]
      exact (Nat.add_le_add_right hcarries _).trans hle

end

section
variable {ι : Type} [DecidableEq ι] {taskKind : H → TaskKind} {c₀ c c₁ c' : WorkerConfig H ι}
  {i : ι} {w : Registration Unit} {kind : WorkerKind} {rest : List (Call H)} {a : ι × WorkerAct H}
  {k : ℕ}

/-- Thread `i` is in the call, which can have begun to run `k` tasks since the last attempt of its
worker at the injector. -/
def HasRun (i : ι) (w : Registration Unit) (kind : WorkerKind) (rest : List (Call H))
    (c : WorkerConfig H ι) (k : ℕ) : Prop :=
  ∃ inner pc, InLoop w kind rest (c.loc i) inner pc ∧
    Allows w (c.shared.tick w.deque) inner pc k

omit [DecidableEq ι] in
/-- Whether the call runs a task. -/
theorem InLoop.runsTask_eq {inner : List (Call H)} {pc : WorkerPc H}
    (h : InLoop w kind rest (c.loc i) inner pc) : runsTask i rest.length c = pc.running := by
  have hget : (c.loc i).calls.reverse[rest.length]? = some ⟨w, kind, pc⟩ := by
    simp [h.calls]
  simp [runsTask, hget]

/-- A step that is no attempt of the worker at the injector adds what the call begins to run, and
with an attempt the count begins anew. -/
theorem HasRun.step (h : HasRun i w kind rest c k) (htries : triesInjector i w c a → k = 0)
    (ha : during i w rest.length c a) (hst : (affinityMachine taskKind ι).step c a = some c') :
    HasRun i w kind rest c' (k + beginsTask i rest.length c a c') := by
  obtain ⟨inner, pc, hin, hk⟩ := h
  obtain ⟨j, b⟩ := a
  obtain ⟨s₁, l₁, hp, rfl⟩ := step_iff.1 hst
  have htrans := workerStep_stackTrans hp
  unfold beginsTask
  rw [hin.runsTask_eq]
  by_cases hji : j = i
  · subst hji
    cases inner with
    | cons top more =>
      have hhead : top ∈ (c.loc j).calls.head? := by simp [hin.calls]
      obtain ⟨inner', hin', hk'⟩ := hin.above htrans hk fun hworker hattempt =>
        htries ⟨rfl, top, hhead, hworker, hattempt⟩
      have hin'' : InLoop w kind rest (Function.update c.loc j l₁ j) inner' pc := by
        simpa using hin'
      refine ⟨inner', pc, hin'', ?_⟩
      rw [hin''.runsTask_eq]
      simpa using hk'
    | nil =>
      have hhead : (⟨w, kind, pc⟩ : Call H) ∈ (c.loc j).calls.head? := by simp [hin.calls]
      have hleave : pc ≠ .leave := ha.1 rfl (by simp [hin.calls]) _ hhead
      obtain ⟨inner', pc', hin', hk'⟩ := hin.innermost hleave htrans hk fun hattempt =>
        htries ⟨rfl, _, hhead, rfl, hattempt⟩
      have hin'' : InLoop w kind rest (Function.update c.loc j l₁ j) inner' pc' := by
        simpa using hin'
      refine ⟨inner', pc', hin'', ?_⟩
      rw [hin''.runsTask_eq]
      exact hk'
  · have hin' : InLoop w kind rest (Function.update c.loc j l₁ i) inner pc := by
      simpa [Function.update_of_ne (Ne.symm hji)] using hin
    refine ⟨inner, pc, hin', ?_⟩
    rw [hin'.runsTask_eq, htrans.tick_eq (ha.2 hji)]
    simpa using hk

omit [DecidableEq ι] in
/-- The call begins. -/
theorem hasRun_begin {l : PoolThread Unit H} {b : Budget}
    (hcall : c₀.loc i = ⟨l, ⟨w, kind, .begin (.runLoop b)⟩ :: rest⟩) (hidle : l.pc = .idle) :
    HasRun i w kind rest c₀ 0 := by
  refine ⟨[], .begin (.runLoop b), ⟨?_, nofun, nofun, fun hbusy => ?_⟩, .inl (Nat.zero_le _)⟩
  · rw [hcall]
    rfl
  · rw [hcall] at hbusy
    exact absurd hidle hbusy

/-- In a part of the run without an attempt the tasks of the call add up. -/
theorem HasRun.run {as : List (ι × WorkerAct H)} (h : HasRun i w kind rest c k)
    (hall : (affinityMachine taskKind ι).AllSteps
      (fun c a => during i w rest.length c a ∧ ¬ triesInjector i w c a) c as)
    (hrun : (affinityMachine taskKind ι).run c as = some c') :
    k + (affinityMachine taskKind ι).cost (beginsTask i rest.length) c as ≤ 64 * 17 := by
  have hend := AllSteps.cost (I := HasRun i w kind rest) (beginsTask i rest.length)
    (fun c a c' k hran hG hst => hran.step (fun htries => absurd htries hG.2) hG.1 hst)
    as h hall hrun
  obtain ⟨inner, pc, -, hk⟩ := hend
  exact hk.le

/-- Thread `i` calls `run_loop` of a worker, with any contents of the queues and any `tick`, and the
call goes on, as its tasks and the other threads do. From a step on, such as an attempt of the
worker to steal from the injector, it begins to run at most `64 * 17` tasks, that of this step
included, until the worker makes the next attempt. -/
theorem injector_never_ignored {l : PoolThread Unit H} {b : Budget} {as : List (ι × WorkerAct H)}
    (hcall : c₀.loc i = ⟨l, ⟨w, kind, .begin (.runLoop b)⟩ :: rest⟩) (hidle : l.pc = .idle)
    (h : (affinityMachine taskKind ι).Reach (during i w rest.length) c₀ c)
    (ha : during i w rest.length c a) (hst : (affinityMachine taskKind ι).step c a = some c₁)
    (hall : (affinityMachine taskKind ι).AllSteps
      (fun c a => during i w rest.length c a ∧ ¬ triesInjector i w c a) c₁ as)
    (hrun : (affinityMachine taskKind ι).run c₁ as = some c') :
    beginsTask i rest.length c a c₁ +
      (affinityMachine taskKind ι).cost (beginsTask i rest.length) c₁ as ≤ 64 * 17 := by
  have hran : HasRun i w kind rest c 0 := by
    refine h.invariant (I := fun c => HasRun i w kind rest c 0) (hasRun_begin hcall hidle) ?_
    intro c a c' hI hG hst
    obtain ⟨inner, pc, hin, -⟩ := hI.step (fun _ => rfl) hG hst
    exact ⟨inner, pc, hin, .inl (Nat.zero_le _)⟩
  have hattempt := hran.step (fun _ => rfl) ha hst
  rw [Nat.zero_add] at hattempt
  exact hattempt.run hall hrun

end

section
variable {ι : Type} [DecidableEq ι] [DecidableEq H] (i : ι) (w : Registration Unit) (n : ℕ)
  (c : WorkerConfig H ι) (a : ι × WorkerAct H)

instance : Decidable (during i w n c a) :=
  inferInstanceAs (Decidable ((_ → _ → ∀ call ∈ (c.loc i).calls.head?, _) ∧
    (_ → ∀ call ∈ (c.loc a.1).calls.head?, _)))

instance : Decidable (triesInjector i w c a) :=
  inferInstanceAs (Decidable (_ ∧ ∃ call ∈ (c.loc i).calls.head?, _))

end

/-- Task 5 is in the injector, and a worker begins `run_loop`, two calls of `find_task` before its
`tick` wraps. -/
def wrapStart : WorkerConfig ℕ Unit where
  shared :=
    { pool := { (.new : Pool Unit ℕ) with
        core := fun _ => ⟨[5], .new, true⟩
        handles := [⟨(), 1, 0⟩] }
      kind := fun _ => some .native
      tick := fun _ => 2 ^ 64 - 2 }
  loc := fun _ => ⟨⟨some (1, 0), .idle⟩, [⟨⟨(), 1, 0⟩, .native, .begin (.runLoop ⟨0, 0⟩)⟩]⟩

/-- The task of the injector queues three, and runs one of them by `run_one` of the same worker; the
other two are run after it. -/
def wrapRun : List (Unit × WorkerAct ℕ) :=
  [((), .handOff 6), ((), .handOff 7), ((), .handOff 8), ((), .runOne ⟨(), 1, 0⟩), ((), .go),
    ((), .attempt (.batch 0)), ((), .done), ((), .go), ((), .done), ((), .go), ((), .done),
    ((), .go), ((), .done), ((), .go), ((), .go)]

/-- Between two attempts of the worker three tasks are run by the call, while the `tick` wraps. -/
theorem injector_never_ignored_wrap : ∃ c c₁ c' : WorkerConfig ℕ Unit,
    (affinityMachine oneCoroutine Unit).runIf (during () ⟨(), 1, 0⟩ 0) wrapStart
      [((), .go), ((), .attempt (.batch 0))] = some c ∧
    triesInjector () ⟨(), 1, 0⟩ c ((), .attempt (.batch 0)) ∧
    (affinityMachine oneCoroutine Unit).step c ((), .attempt (.batch 0)) = some c₁ ∧
    (affinityMachine oneCoroutine Unit).runIf
      (fun c a => during () ⟨(), 1, 0⟩ 0 c a ∧ ¬ triesInjector () ⟨(), 1, 0⟩ c a) c₁ wrapRun =
        some c' ∧
    triesInjector () ⟨(), 1, 0⟩ c' ((), .attempt (.batch 0)) ∧ c'.shared.tick 0 = 1 ∧
    1 + (affinityMachine oneCoroutine Unit).cost (beginsTask () 0) c₁ wrapRun = 3 ∧
    beginsTask () 0 c ((), .attempt (.batch 0)) c₁ +
      (affinityMachine oneCoroutine Unit).cost (beginsTask () 0) c₁ wrapRun ≤ 64 * 17 := by
  have hcall : wrapStart.loc () =
      ⟨⟨some (1, 0), .idle⟩, [⟨⟨(), 1, 0⟩, .native, .begin (.runLoop ⟨0, 0⟩)⟩]⟩ := rfl
  have key : ∀ c c₁ c' : WorkerConfig ℕ Unit,
      (affinityMachine oneCoroutine Unit).runIf (during () ⟨(), 1, 0⟩ 0) wrapStart
        [((), .go), ((), .attempt (.batch 0))] = some c →
      during () ⟨(), 1, 0⟩ 0 c ((), .attempt (.batch 0)) →
      (affinityMachine oneCoroutine Unit).step c ((), .attempt (.batch 0)) = some c₁ →
      (affinityMachine oneCoroutine Unit).runIf
        (fun c a => during () ⟨(), 1, 0⟩ 0 c a ∧ ¬ triesInjector () ⟨(), 1, 0⟩ c a) c₁ wrapRun =
          some c' →
      beginsTask () 0 c ((), .attempt (.batch 0)) c₁ +
        (affinityMachine oneCoroutine Unit).cost (beginsTask () 0) c₁ wrapRun ≤ 64 * 17 := by
    intro c c₁ c' h ha hst h₁
    obtain ⟨hall, hrun⟩ := allSteps_of_runIf _ h₁
    exact injector_never_ignored hcall rfl (reach_of_runIf _ h) ha hst hall hrun
  exact ⟨_, _, _, rfl, by decide, rfl, rfl, by decide, rfl, rfl, key _ _ _ rfl (by decide) rfl rfl⟩

end Hypertile.Affinity
