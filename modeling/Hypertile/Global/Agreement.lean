import Hypertile.Global.Runtime

/-!
# Agreement on the global runtime

One runtime is published at most, and stays. A call of `configure_global_runtime` succeeds exactly
if it has published its own candidate; the others report the size of the published runtime, and have
stopped and joined their candidates when they return. All other calls return the published runtime
(`global_runtime_agreed`).

A candidate belongs to the thread that has made it until it is published or dropped, so no two
threads publish or drop the same one.
-/

namespace Hypertile

open Machine Machine.Threads

variable {κ ι : Type}

/-! ## Candidates -/

namespace GlobalPc

/-- The thread runs the initializer of `get_or_init`. -/
def initializes : GlobalPc κ → Bool
  | .runInit | .publish _ => true
  | _ => false

/-- The runtime that the thread has made, and neither published nor dropped. -/
def owns : GlobalPc κ → Option κ
  | .set _ r | .getLost _ r | .drop _ r _ | .publish r => some r
  | _ => none

/-- The thread is in a call of `configure_global_runtime` that has published its candidate. -/
def wins : GlobalPc κ → Bool
  | .getWon .. | .ret _ _ (.ok _) => true
  | _ => false

end GlobalPc

/-- `set` finds no value and no initializer running. -/
def OnceState.isInitializing : OnceState κ → Bool
  | .initializing => true
  | _ => false

/-- The call has succeeded. -/
def ConfigureReturn.isOk (x : ConfigureReturn κ) : Bool :=
  match x.result with
  | .ok _ => true
  | .error _ => false

/-- A candidate that was not dropped: it has the size that was asked for, and the handles of all its
workers. -/
structure PoolRuntime.Whole (rt : PoolRuntime) (size : ℕ) : Prop where
  size_eq : rt.numWorkers = size
  workers : ∀ k < rt.numWorkers, k ∈ rt.workerThreads

/-- A new runtime is whole. -/
theorem PoolRuntime.new_whole (n : ℕ) : (PoolRuntime.new n).Whole n where
  size_eq := List.length_range
  workers k hk := by simpa [PoolRuntime.new, startWorkers] using hk

/-- `p` is the published runtime, `rt` its state. -/
structure GlobalShared.Published (s : GlobalShared κ) (p : κ) (rt : PoolRuntime) : Prop where
  once : s.once = .published p
  runtime : s.runtime p = some rt

/-- What a call of `configure_global_runtime` returns: its own candidate, of the size that it asks
for, if that is published; otherwise the size of the published runtime, and its candidate is shut
down. -/
def ConfigureReturn.Agrees (env : Option (List Char)) (parallelism : Option ℕ) (s : GlobalShared κ)
    (x : ConfigureReturn κ) : Prop :=
  ∃ p rt, s.Published p rt ∧
    match x.result with
    | .ok r => r = p ∧ x.candidate = some p ∧
      rt.numWorkers = resolveWorkerCount env parallelism x.requested
    | .error workers => workers = rt.numWorkers ∧ ∀ r, x.candidate = some r → r ≠ p ∧
      ∃ rt', s.runtime r = some rt' ∧ rt'.ShutDown

section
variable {env : Option (List Char)} {parallelism : Option ℕ}

/-- What a thread knows where it stands. -/
def GlobalPc.Sound (env : Option (List Char)) (parallelism : Option ℕ) (s : GlobalShared κ) :
    GlobalPc κ → Prop
  | .set call r => ∃ rt, s.runtime r = some rt ∧
      rt.Whole (resolveWorkerCount env parallelism call.requested)
  | .getWon call r => ∃ rt, s.Published r rt ∧
      rt.numWorkers = resolveWorkerCount env parallelism call.requested
  | .getLost call r => (∃ p rt, s.Published p rt) ∧ ∃ rt, s.runtime r = some rt ∧
      rt.Whole (resolveWorkerCount env parallelism call.requested)
  | .drop call r workers => (∃ p rt, s.Published p rt ∧ workers = rt.numWorkers) ∧
      ∃ rt, s.runtime r = some rt ∧
        rt.Whole (resolveWorkerCount env parallelism call.requested)
  | .join _ r toJoin workers => ∃ p rt, s.Published p rt ∧ workers = rt.numWorkers ∧ r ≠ p ∧
      ∃ rt', s.runtime r = some rt' ∧ rt'.running = false ∧
        ∀ k < rt'.numWorkers, k ∈ rt'.exited ∨ k ∈ toJoin
  | .ret call candidate result =>
      ConfigureReturn.Agrees env parallelism s ⟨call.requested, candidate, result⟩
  | .getStarted => ∃ p rt, s.Published p rt
  | .publish r => ∃ rt, s.runtime r = some rt
  | _ => True

/-- What holds of every run. -/
structure GlobalInv (env : Option (List Char)) (parallelism : Option ℕ) (c : GlobalConfig κ ι) :
    Prop where
  initializing : Mutex c.shared.once.isInitializing GlobalPc.initializes c.loc
  history : c.shared.published = c.shared.get.toList
  made : ∀ p, c.shared.once = .published p → ∃ rt, c.shared.runtime p = some rt
  owned : ∀ i r, (c.loc i).owns = some r → c.shared.once ≠ .published r
  owner : ∀ i j r, (c.loc i).owns = some r → (c.loc j).owns = some r → i = j
  winner : ∀ i j, (c.loc i).wins = true → (c.loc j).wins = true → i = j
  winsFirst : ∀ i, (c.loc i).wins = true → c.shared.configured.countP ConfigureReturn.isOk = 0
  won : c.shared.configured.countP ConfigureReturn.isOk ≤ 1
  configured : ∀ x ∈ c.shared.configured, x.Agrees env parallelism c.shared
  returned : ∀ r ∈ c.shared.returned, c.shared.once = .published r
  calm : c.shared.panicked = false
  threads : ∀ i, (c.loc i).Sound env parallelism c.shared

/-! ## What lasts -/

variable [DecidableEq κ] {s s' : GlobalShared κ} {m m' : GlobalPc κ} {a : GlobalAct κ}

/-- A runtime keeps its size, stays stopped, its workers stay exited, and it has its handles until
it is dropped. -/
theorem GlobalTrans.keeps_runtime (h : GlobalTrans env parallelism s m a s' m') {r : κ}
    {rt : PoolRuntime} (hrt : s.runtime r = some rt) :
    ∃ rt', s'.runtime r = some rt' ∧ rt'.numWorkers = rt.numWorkers ∧
      (rt.running = false → rt'.running = false) ∧ (∀ k ∈ rt.exited, k ∈ rt'.exited) ∧
      (m.owns ≠ some r ∨ m' = m → rt'.workerThreads = rt.workerThreads) := by
  have hset : ∀ {r' : κ} {rt₁ rt₂ : PoolRuntime}, s.runtime r' = some rt₁ →
      rt₂.numWorkers = rt₁.numWorkers → (rt₁.running = false → rt₂.running = false) →
      (∀ k ∈ rt₁.exited, k ∈ rt₂.exited) →
      (m.owns ≠ some r' ∨ m' = m → rt₂.workerThreads = rt₁.workerThreads) →
      ∃ rt', (s.setRuntime r' rt₂).runtime r = some rt' ∧ rt'.numWorkers = rt.numWorkers ∧
        (rt.running = false → rt'.running = false) ∧ (∀ k ∈ rt.exited, k ∈ rt'.exited) ∧
        (m.owns ≠ some r ∨ m' = m → rt'.workerThreads = rt.workerThreads) := by
    intro r' rt₁ rt₂ hrt₁ hsize hrunning hexited hworkers
    by_cases hr : r' = r
    · subst hr
      rw [hrt₁] at hrt
      cases hrt
      exact ⟨rt₂, Function.update_self .., hsize, hrunning, hexited, hworkers⟩
    · exact ⟨rt, (Function.update_of_ne (Ne.symm hr) ..).trans hrt, rfl, id, fun _ hk => hk,
        fun _ => rfl⟩
  have hfresh : ∀ {r' : κ} {rt₂ : PoolRuntime}, s.runtime r' = none →
      (s.setRuntime r' rt₂).runtime r = some rt := by
    intro r' rt₂ hnew
    refine (Function.update_of_ne ?_ ..).trans hrt
    rintro rfl
    rw [hrt] at hnew
    cases hnew
  cases h with
  | exit hrt₁ hstopped =>
    exact hset hrt₁ rfl (fun h => h) (fun _ hk => .tail _ hk) fun _ => rfl
  | drop hrt₁ =>
    exact hset hrt₁ rfl (fun _ => rfl) (fun _ hk => hk) fun hne =>
      absurd rfl (hne.resolve_right nofun)
  | create hnew | runInit hnew =>
    exact ⟨rt, hfresh hnew, rfl, id, fun _ hk => hk, fun _ => rfl⟩
  | _ => exact ⟨rt, hrt, rfl, id, fun _ hk => hk, fun _ => rfl⟩

/-- The published runtime stays. -/
theorem GlobalTrans.keeps_once (h : GlobalTrans env parallelism s m a s' m')
    (hinit : m.initializes = true → s.once.isInitializing = true) {p : κ}
    (hp : s.once = .published p) : s'.once = .published p := by
  cases h with
  | setWon honce | enter honce =>
    rw [hp] at honce
    cases honce
  | publish =>
    have := hinit rfl
    rw [hp] at this
    cases this
  | _ => exact hp

/-- A runtime that is published stays so, with its size. -/
theorem GlobalTrans.keeps_published (h : GlobalTrans env parallelism s m a s' m')
    (hinit : m.initializes = true → s.once.isInitializing = true) {p : κ} {rt : PoolRuntime}
    (hp : s.Published p rt) : ∃ rt', s'.Published p rt' ∧ rt'.numWorkers = rt.numWorkers := by
  obtain ⟨rt', hrt', hsize, -⟩ := h.keeps_runtime hp.runtime
  exact ⟨rt', ⟨h.keeps_once hinit hp.once, hrt'⟩, hsize⟩

/-- A runtime that is shut down stays so. -/
theorem GlobalTrans.keeps_shutDown (h : GlobalTrans env parallelism s m a s' m') {r : κ}
    (hr : ∃ rt, s.runtime r = some rt ∧ rt.ShutDown) :
    ∃ rt, s'.runtime r = some rt ∧ rt.ShutDown := by
  obtain ⟨rt, hrt, hstopped, hexited⟩ := hr
  obtain ⟨rt', hrt', hsize, hrunning, hkeep, -⟩ := h.keeps_runtime hrt
  exact ⟨rt', hrt', hrunning hstopped, fun k hk => hkeep k (hexited k (hsize ▸ hk))⟩

/-- What a call has returned stays right. -/
theorem GlobalTrans.keeps_agrees (h : GlobalTrans env parallelism s m a s' m')
    (hinit : m.initializes = true → s.once.isInitializing = true) {x : ConfigureReturn κ}
    (hx : x.Agrees env parallelism s) : x.Agrees env parallelism s' := by
  obtain ⟨p, rt, hp, hresult⟩ := hx
  obtain ⟨rt', hp', hsize⟩ := h.keeps_published hinit hp
  refine ⟨p, rt', hp', ?_⟩
  cases hr : x.result with
  | ok r =>
    rw [hr] at hresult
    exact ⟨hresult.1, hresult.2.1, hsize.trans hresult.2.2⟩
  | error workers =>
    rw [hr] at hresult
    exact ⟨hresult.1.trans hsize.symm, fun r hcand =>
      ⟨(hresult.2 r hcand).1, h.keeps_shutDown (hresult.2 r hcand).2⟩⟩

/-- A candidate stays whole, unless its owner moves on. -/
theorem GlobalTrans.keeps_whole (h : GlobalTrans env parallelism s m a s' m') {r : κ} {size : ℕ}
    (hm : m.owns ≠ some r ∨ m' = m) (hr : ∃ rt, s.runtime r = some rt ∧ rt.Whole size) :
    ∃ rt, s'.runtime r = some rt ∧ rt.Whole size := by
  obtain ⟨rt, hrt, hwhole⟩ := hr
  obtain ⟨rt', hrt', hsize, -, -, hworkers⟩ := h.keeps_runtime hrt
  refine ⟨rt', hrt', hsize.trans hwhole.size_eq, fun k hk => ?_⟩
  rw [hworkers hm]
  exact hwhole.workers k (hsize ▸ hk)

/-- What a thread knows lasts, unless the owner of its candidate moves on. -/
theorem GlobalPc.Sound.keeps {l : GlobalPc κ} (hl : l.Sound env parallelism s)
    (h : GlobalTrans env parallelism s m a s' m')
    (hinit : m.initializes = true → s.once.isInitializing = true)
    (hfree : ∀ r, l.owns = some r → m.owns ≠ some r ∨ m' = m) : l.Sound env parallelism s' := by
  cases l with
  | set call r => exact h.keeps_whole (hfree r rfl) hl
  | getWon call r =>
    obtain ⟨rt, hp, hsize⟩ := hl
    obtain ⟨rt', hp', hsize'⟩ := h.keeps_published hinit hp
    exact ⟨rt', hp', hsize'.trans hsize⟩
  | getLost call r =>
    obtain ⟨⟨p, rt, hp⟩, hwhole⟩ := hl
    obtain ⟨rt', hp', -⟩ := h.keeps_published hinit hp
    exact ⟨⟨p, rt', hp'⟩, h.keeps_whole (hfree r rfl) hwhole⟩
  | drop call r workers =>
    obtain ⟨⟨p, rt, hp, hworkers⟩, hwhole⟩ := hl
    obtain ⟨rt', hp', hsize⟩ := h.keeps_published hinit hp
    exact ⟨⟨p, rt', hp', hworkers.trans hsize.symm⟩, h.keeps_whole (hfree r rfl) hwhole⟩
  | join call r toJoin workers =>
    obtain ⟨p, rt, hp, hworkers, hne, rt₁, hrt₁, hstopped, hjoin⟩ := hl
    obtain ⟨rt', hp', hsize⟩ := h.keeps_published hinit hp
    obtain ⟨rt₂, hrt₂, hsize₂, hrunning, hkeep, -⟩ := h.keeps_runtime hrt₁
    exact ⟨p, rt', hp', hworkers.trans hsize.symm, hne, rt₂, hrt₂, hrunning hstopped,
      fun k hk => (hjoin k (hsize₂ ▸ hk)).imp_left (hkeep k)⟩
  | ret => exact h.keeps_agrees hinit hl
  | getStarted =>
    obtain ⟨p, rt, hp⟩ := hl
    obtain ⟨rt', hp', -⟩ := h.keeps_published hinit hp
    exact ⟨p, rt', hp'⟩
  | publish r =>
    obtain ⟨rt, hrt⟩ := hl
    obtain ⟨rt', hrt', -⟩ := h.keeps_runtime hrt
    exact ⟨rt', hrt'⟩
  | _ => trivial

/-! ## The steps -/

omit [DecidableEq κ] in
/-- A thread that owns a runtime has made it. -/
theorem GlobalPc.Sound.made (hm : m.Sound env parallelism s) {r : κ} (hr : m.owns = some r) :
    ∃ rt, s.runtime r = some rt := by
  cases m with
  | set call r' =>
    cases hr
    obtain ⟨rt, hrt, -⟩ := hm
    exact ⟨rt, hrt⟩
  | getLost call r' | drop call r' =>
    cases hr
    obtain ⟨-, rt, hrt, -⟩ := hm
    exact ⟨rt, hrt⟩
  | publish => cases hr; exact hm
  | _ => cases hr

omit [DecidableEq κ] in
/-- A call that has published its candidate finds it published. -/
theorem GlobalPc.Sound.won (hm : m.Sound env parallelism s) (hw : m.wins = true) :
    ∃ p, s.once = .published p := by
  cases m with
  | getWon call r =>
    obtain ⟨rt, hp, -⟩ := hm
    exact ⟨r, hp.once⟩
  | ret =>
    obtain ⟨p, rt, hp, -⟩ := hm
    exact ⟨p, hp.once⟩
  | _ => cases hw

/-- Initializers run one at a time. -/
theorem GlobalTrans.initializing (h : GlobalTrans env parallelism s m a s' m')
    (hinit : m.initializes = true → s.once.isInitializing = true) :
    (m'.initializes = true → s'.once.isInitializing = true ∧
      (m.initializes = true ∨ s.once.isInitializing = false)) ∧
    (m.initializes = false → m'.initializes = false →
      s'.once.isInitializing = s.once.isInitializing) := by
  cases h with
  | exit => exact ⟨fun hm => ⟨hinit hm, .inl hm⟩, fun _ _ => rfl⟩
  | enter honce => exact ⟨fun _ => ⟨rfl, .inr (by rw [honce]; rfl)⟩, fun _ => nofun⟩
  | runInit => exact ⟨fun _ => ⟨hinit rfl, .inl rfl⟩, fun _ => nofun⟩
  | setWon honce => exact ⟨nofun, fun _ _ => by rw [honce]; rfl⟩
  | publish => exact ⟨nofun, nofun⟩
  | _ => exact ⟨nofun, fun _ _ => rfl⟩

/-- The runtimes that were published are the published one. -/
theorem GlobalTrans.history (h : GlobalTrans env parallelism s m a s' m')
    (hinit : m.initializes = true → s.once.isInitializing = true)
    (hh : s.published = s.get.toList) : s'.published = s'.get.toList := by
  cases h with
  | setWon honce =>
    rw [GlobalShared.get, honce] at hh
    simp [GlobalShared.publish, GlobalShared.get, hh]
  | publish =>
    have hno : s.get = none := by
      cases honce : s.once with
      | published p =>
        have := hinit rfl
        rw [honce] at this
        cases this
      | empty | initializing => rw [GlobalShared.get, honce]
    rw [hno] at hh
    simp [GlobalShared.publish, GlobalShared.get, hh]
  | enter honce =>
    rw [GlobalShared.get, honce] at hh
    exact hh
  | _ => exact hh

/-- A runtime is published by its owner. -/
theorem GlobalTrans.once_of (h : GlobalTrans env parallelism s m a s' m') {p : κ}
    (hp : s'.once = .published p) : s.once = .published p ∨ m.owns = some p ∧ m'.owns = none := by
  cases h with
  | setWon | publish => cases hp; exact .inr ⟨rfl, rfl⟩
  | enter => cases hp
  | _ => exact .inl hp

/-- A thread owns what it has owned, or a new runtime. -/
theorem GlobalTrans.owns_of (h : GlobalTrans env parallelism s m a s' m') {r : κ}
    (hr : m'.owns = some r) : m.owns = some r ∨ s.runtime r = none := by
  cases h with
  | exit | setLost | getLost => exact .inl hr
  | create hnew | runInit hnew => cases hr; exact .inr hnew
  | _ => cases hr

/-- A call comes to win by publishing, where nothing is published. -/
theorem GlobalTrans.wins_of (h : GlobalTrans env parallelism s m a s' m') (hw : m'.wins = true) :
    s'.configured = s.configured ∧ (m.wins = true ∨ s.once = .empty) := by
  cases h with
  | exit => exact ⟨rfl, .inl hw⟩
  | setWon honce => exact ⟨rfl, .inr honce⟩
  | getWon => exact ⟨rfl, .inl rfl⟩
  | _ => cases hw

/-- What is recorded of a call that returns. -/
theorem GlobalTrans.configured_of (h : GlobalTrans env parallelism s m a s' m')
    (hm : m.Sound env parallelism s) : s'.configured = s.configured ∨
      ∃ x, x.Agrees env parallelism s ∧ s'.configured = x :: s.configured ∧
        (x.isOk = true → m.wins = true) := by
  cases h with
  | @ret call candidate result =>
    refine .inr ⟨_, hm, rfl, fun hok => ?_⟩
    cases result with
    | ok => rfl
    | error => cases hok
  | @retOk call candidate r =>
    exact .inr ⟨⟨call.requested, candidate, .ok r⟩, hm, rfl, fun _ => rfl⟩
  | @retError call candidate workers =>
    exact .inr ⟨⟨call.requested, candidate, .error workers⟩, hm, rfl, nofun⟩
  | _ => exact .inl rfl

/-- A call returns the published runtime. -/
theorem GlobalTrans.returned_of (h : GlobalTrans env parallelism s m a s' m')
    (hm : m.Sound env parallelism s) {r : κ} (hr : r ∈ s'.returned) :
    r ∈ s.returned ∨ s'.once = .published r := by
  cases h with
  | retOk =>
    obtain ⟨p, rt, hp, hrp, -⟩ := hm
    rcases List.mem_cons.1 hr with rfl | hr
    · exact .inr (hrp ▸ hp.once)
    · exact .inl hr
  | getStarted honce | found honce =>
    rcases List.mem_cons.1 hr with rfl | hr
    · exact .inr honce
    · exact .inl hr
  | publish =>
    rcases List.mem_cons.1 hr with rfl | hr
    · exact .inr rfl
    · exact .inl hr
  | _ => exact .inl hr

/-- No `expect` panics. -/
theorem GlobalTrans.calm (h : GlobalTrans env parallelism s m a s' m')
    (hm : m.Sound env parallelism s) : s'.panicked = s.panicked := by
  cases h with
  | getWonPanic hno =>
    obtain ⟨rt, hp, -⟩ := hm
    exact absurd hp.once (hno _)
  | getLostPanic hno =>
    obtain ⟨⟨p, rt, hp⟩, -⟩ := hm
    exact absurd hp.once (hno _)
  | getStartedPanic hno =>
    obtain ⟨p, rt, hp⟩ := hm
    exact absurd hp.once (hno _)
  | _ => rfl

/-- What a thread knows after its step. -/
theorem GlobalTrans.sound (h : GlobalTrans env parallelism s m a s' m')
    (hm : m.Sound env parallelism s)
    (hinit : m.initializes = true → s.once.isInitializing = true)
    (hmade : ∀ p, s.once = .published p → ∃ rt, s.runtime p = some rt)
    (howned : ∀ r, m.owns = some r → s.once ≠ .published r) : m'.Sound env parallelism s' := by
  have hall := h
  cases h with
  | exit => exact hm.keeps hall hinit fun _ _ => .inr rfl
  | getSome honce hrt => exact ⟨_, _, ⟨honce, hrt⟩, rfl, nofun⟩
  | create => exact ⟨_, Function.update_self .., PoolRuntime.new_whole _⟩
  | runInit => exact ⟨_, Function.update_self ..⟩
  | setWon =>
    obtain ⟨rt, hrt, hwhole⟩ := hm
    exact ⟨rt, ⟨rfl, hrt⟩, hwhole.size_eq⟩
  | setLost honce =>
    obtain ⟨rt, hrt⟩ := hmade _ honce
    exact ⟨⟨_, rt, honce, hrt⟩, hm⟩
  | getWon honce =>
    obtain ⟨rt, hp, hsize⟩ := hm
    have heq := honce.symm.trans hp.once
    cases heq
    exact ⟨_, rt, hp, rfl, rfl, hsize⟩
  | getLost honce hrt => exact ⟨⟨_, _, ⟨honce, hrt⟩, rfl⟩, hm.2⟩
  | drop hrt =>
    obtain ⟨⟨p, rt₁, hp, hworkers⟩, rt, hrt', hwhole⟩ := hm
    cases hrt.symm.trans hrt'
    obtain ⟨rt₂, hp₂, hsize⟩ := hall.keeps_published hinit hp
    refine ⟨p, rt₂, hp₂, hworkers.trans hsize.symm, ?_, _, Function.update_self .., rfl, fun k hk =>
      .inr (hwhole.workers k hk)⟩
    rintro rfl
    exact howned _ rfl hp.once
  | joined =>
    obtain ⟨p, rt, hp, hworkers, hne, rt', hrt', hstopped, hjoin⟩ := hm
    refine ⟨p, rt, hp, hworkers, fun r hr => ?_⟩
    cases hr
    exact ⟨hne, rt', hrt', hstopped, fun k hk => (hjoin k hk).resolve_right List.not_mem_nil⟩
  | join hrt hk =>
    obtain ⟨p, rt, hp, hworkers, hne, rt', hrt', hstopped, hjoin⟩ := hm
    cases hrt.symm.trans hrt'
    refine ⟨p, rt, hp, hworkers, hne, _, hrt', hstopped, fun k' hk' => ?_⟩
    rcases hjoin k' hk' with hexited | hmem
    · exact .inl hexited
    · rcases List.mem_cons.1 hmem with rfl | hmem
      · exact .inl hk
      · exact .inr hmem
  | retError =>
    obtain ⟨p, rt, hp, -⟩ := hm
    exact ⟨p, rt, hp.once, hp.runtime⟩
  | _ => trivial

end

/-! ## All runs -/

section
variable {env : Option (List Char)} {parallelism : Option ℕ} [DecidableEq κ] [DecidableEq ι]
  {c c' : GlobalConfig κ ι}

omit [DecidableEq ι] [DecidableEq κ] in
/-- The invariant holds at the start. -/
theorem GlobalInv.init :
    GlobalInv env parallelism (⟨.new, fun _ => .idle⟩ : GlobalConfig κ ι) where
  initializing := .free fun _ => rfl
  history := rfl
  made _ := nofun
  owned _ _ := nofun
  owner _ _ _ := nofun
  winner _ _ := nofun
  winsFirst _ _ := rfl
  won := Nat.zero_le 1
  configured := nofun
  returned := nofun
  calm := rfl
  threads _ := trivial

omit [DecidableEq ι] [DecidableEq κ] in
/-- Where nothing is published, no call has won. -/
theorem GlobalInv.none_won (hI : GlobalInv env parallelism c) (hempty : c.shared.once = .empty) :
    (∀ i, (c.loc i).wins = false) ∧ c.shared.configured.countP ConfigureReturn.isOk = 0 := by
  constructor
  · intro i
    refine Bool.eq_false_iff.2 fun hw => ?_
    obtain ⟨p, hp⟩ := (hI.threads i).won hw
    rw [hempty] at hp
    cases hp
  · refine List.countP_eq_zero.2 fun x hx _ => ?_
    obtain ⟨p, rt, hp, -⟩ := hI.configured x hx
    have := hp.once
    rw [hempty] at this
    cases this

/-- A step keeps the invariant. -/
theorem GlobalInv.step {a : ι × GlobalAct κ} (hI : GlobalInv env parallelism c)
    (hst : (globalMachine κ ι env parallelism).step c a = some c') :
    GlobalInv env parallelism c' := by
  obtain ⟨i, a⟩ := a
  obtain ⟨s', m', hp, rfl⟩ := step_iff.1 hst
  have h : GlobalTrans env parallelism c.shared (c.loc i) a s' m' := globalStep_trans hp
  have hinit : (c.loc i).initializes = true → c.shared.once.isInitializing = true :=
    hI.initializing.locked_of_holds
  have hsound := hI.threads i
  have hself : Function.update c.loc i m' i = m' := Function.update_self ..
  have hother : ∀ {j}, j ≠ i → Function.update c.loc i m' j = c.loc j :=
    fun hj => Function.update_of_ne hj ..
  -- the moving thread comes to own what nobody else owns, and to win where nobody else has won
  have howns : ∀ {j r}, j ≠ i → m'.owns = some r → (c.loc j).owns ≠ some r := by
    intro j r hji hm' hj
    rcases h.owns_of hm' with hm | hnone
    · exact hji (hI.owner j i r hj hm)
    · obtain ⟨rt, hrt⟩ := (hI.threads j).made hj
      rw [hrt] at hnone
      cases hnone
  have hwins : ∀ {j}, j ≠ i → m'.wins = true → (c.loc j).wins ≠ true := by
    intro j hji hm' hj
    rcases (h.wins_of hm').2 with hm | hempty
    · exact hji (hI.winner j i hj hm)
    · rw [(hI.none_won hempty).1 j] at hj
      cases hj
  refine ⟨hI.initializing.step (h.initializing hinit).1 (h.initializing hinit).2,
    h.history hinit hI.history, fun p hp => ?_, fun j r hj hp => ?_, fun j k r hj hk => ?_,
    fun j k hj hk => ?_, fun j hj => ?_, ?_, fun x hx => ?_, fun r hr => ?_,
    (h.calm hsound).trans hI.calm, ?_⟩
  · have hmade : ∃ rt, c.shared.runtime p = some rt := by
      rcases h.once_of hp with hp | ⟨hm, -⟩
      · exact hI.made p hp
      · exact hsound.made hm
    obtain ⟨rt, hrt⟩ := hmade
    obtain ⟨rt', hrt', -⟩ := h.keeps_runtime hrt
    exact ⟨rt', hrt'⟩
  · change (Function.update c.loc i m' j).owns = _ at hj
    by_cases hji : j = i
    · subst hji
      rw [hself] at hj
      rcases h.once_of hp with hp | ⟨-, hm'⟩
      · rcases h.owns_of hj with hm | hnone
        · exact hI.owned j r hm hp
        · obtain ⟨rt, hrt⟩ := hI.made r hp
          rw [hrt] at hnone
          cases hnone
      · rw [hm'] at hj
        cases hj
    · rw [hother hji] at hj
      rcases h.once_of hp with hp | ⟨hm, -⟩
      · exact hI.owned j r hj hp
      · exact hji (hI.owner j i r hj hm)
  · refine unique_update (p := fun m : GlobalPc κ => m.owns = some r)
      (fun j k => hI.owner j k r) ?_ j k hj hk
    exact fun hm' j hji => howns hji hm'
  · refine unique_update (p := fun m : GlobalPc κ => m.wins = true) hI.winner ?_ j k hj hk
    exact fun hm' j hji => hwins hji hm'
  · change (Function.update c.loc i m' j).wins = true at hj
    change s'.configured.countP _ = 0
    by_cases hji : j = i
    · subst hji
      rw [hself] at hj
      obtain ⟨hsame, hm | hempty⟩ := h.wins_of hj
      · rw [hsame]
        exact hI.winsFirst j hm
      · rw [hsame]
        exact (hI.none_won hempty).2
    · rw [hother hji] at hj
      rcases h.configured_of hsound with hsame | ⟨x, -, hnew, hok⟩
      · rw [hsame]
        exact hI.winsFirst j hj
      · have hno : x.isOk ≠ true := fun hx => hji (hI.winner j i hj (hok hx))
        rw [hnew, List.countP_cons_of_neg hno]
        exact hI.winsFirst j hj
  · change s'.configured.countP _ ≤ 1
    rcases h.configured_of hsound with hsame | ⟨x, -, hnew, hok⟩
    · rw [hsame]
      exact hI.won
    · rw [hnew]
      by_cases hx : x.isOk = true
      · rw [List.countP_cons_of_pos hx, hI.winsFirst i (hok hx)]
      · rw [List.countP_cons_of_neg hx]
        exact hI.won
  · change x ∈ s'.configured at hx
    refine h.keeps_agrees hinit ?_
    rcases h.configured_of hsound with hsame | ⟨y, hy, hnew, -⟩
    · exact hI.configured x (hsame ▸ hx)
    · rw [hnew] at hx
      rcases List.mem_cons.1 hx with rfl | hx
      · exact hy
      · exact hI.configured x hx
  · rcases h.returned_of hsound hr with hr | hr
    · exact h.keeps_once hinit (hI.returned r hr)
    · exact hr
  · refine (Function.forall_update_iff c.loc fun _ m => m.Sound env parallelism s').2
      ⟨h.sound hsound hinit hI.made (hI.owned i), fun j hji => ?_⟩
    exact (hI.threads j).keeps h hinit fun r hj => .inl fun hi => hji (hI.owner j i r hj hi)

/-- A run keeps the invariant. -/
theorem reachable_globalInv (h : (globalMachine κ ι env parallelism).Reachable anyStep c) :
    GlobalInv env parallelism c := by
  refine h.invariant .init ?_
  intro _ _ _ hI _ hst
  exact hI.step hst

/-- A run keeps the published runtime. -/
theorem GlobalInv.keeps_once (hI : GlobalInv env parallelism c)
    (h : (globalMachine κ ι env parallelism).Reach anyStep c c') {p : κ}
    (hp : c.shared.once = .published p) : c'.shared.once = .published p := by
  refine (h.invariant (I := fun c => GlobalInv env parallelism c ∧ c.shared.once = .published p)
    ⟨hI, hp⟩ ?_).2
  rintro c ⟨i, a⟩ c' ⟨hI, hp⟩ - hst
  refine ⟨hI.step hst, ?_⟩
  obtain ⟨s', m', hstep, rfl⟩ := step_iff.1 hst
  exact (globalStep_trans hstep).keeps_once hI.initializing.locked_of_holds hp

end

/-- Agreement on the global runtime: at most one runtime was published, and it is the one that is
found; at most one call of `configure_global_runtime` has succeeded; each has returned its own
candidate, of the size that its request resolves to, exactly if that is published, and otherwise the
size of the published runtime, with its own candidate shut down; the other calls have returned the
published runtime, and no `expect` has panicked. A request resolves to the size that it asks for, if
any, and to one worker at least. -/
structure GlobalAgreed (env : Option (List Char)) (parallelism : Option ℕ)
    (c : GlobalConfig κ ι) : Prop where
  published : c.shared.published = c.shared.get.toList
  won : c.shared.configured.countP ConfigureReturn.isOk ≤ 1
  result : ∀ x ∈ c.shared.configured, ∃ p rt, c.shared.once = .published p ∧
    c.shared.runtime p = some rt ∧ (∀ r, x.result = .ok r ↔ x.candidate = some p ∧ r = p) ∧
      (x.isOk = true → rt.numWorkers = resolveWorkerCount env parallelism x.requested ∧
        (0 < x.requested → rt.numWorkers = x.requested) ∧ 1 ≤ rt.numWorkers) ∧
      ∀ workers, x.result = .error workers → workers = rt.numWorkers
  losers : ∀ x ∈ c.shared.configured, ∀ r, x.candidate = some r → c.shared.once ≠ .published r →
    ∃ rt, c.shared.runtime r = some rt ∧ rt.ShutDown
  returned : ∀ r ∈ c.shared.returned, c.shared.once = .published r
  calm : c.shared.panicked = false

/-- In every run the threads agree on the global runtime, and a runtime that was published stays. -/
theorem global_runtime_agreed {env : Option (List Char)} {parallelism : Option ℕ} [DecidableEq κ]
    [DecidableEq ι] {c : GlobalConfig κ ι}
    (h : (globalMachine κ ι env parallelism).Reachable anyStep c) :
    GlobalAgreed env parallelism c ∧ ∀ p c', c.shared.once = .published p →
      (globalMachine κ ι env parallelism).Reach anyStep c c' → c'.shared.once = .published p := by
  have hI : GlobalInv env parallelism c := reachable_globalInv h
  refine ⟨⟨hI.history, hI.won, fun x hx => ?_, fun x hx r hr hne => ?_, hI.returned, hI.calm⟩,
    fun p c' hp hrun => hI.keeps_once hrun hp⟩
  · obtain ⟨p, rt, hp, hresult⟩ := hI.configured x hx
    refine ⟨p, rt, hp.once, hp.runtime, ?_⟩
    cases hr : x.result with
    | ok r =>
      rw [hr] at hresult
      obtain ⟨rfl, hcand, hsize⟩ := hresult
      refine ⟨fun r' => ⟨?_, ?_⟩, fun _ => ⟨hsize, fun hpos => ?_, ?_⟩, nofun⟩
      · intro hr'
        cases hr'
        exact ⟨hcand, rfl⟩
      · rintro ⟨-, rfl⟩
        rfl
      · rw [hsize, resolveWorkerCount_of_pos env parallelism hpos]
      · rw [hsize]
        exact resolveWorkerCount_pos env parallelism x.requested
    | error workers =>
      rw [hr] at hresult
      refine ⟨fun r => ⟨nofun, ?_⟩, fun hok => ?_, fun workers' hw => ?_⟩
      · rintro ⟨hcand, rfl⟩
        exact absurd rfl (hresult.2 r hcand).1
      · rw [ConfigureReturn.isOk, hr] at hok
        cases hok
      · cases hw
        exact hresult.1
  · obtain ⟨p, rt, hp, hresult⟩ := hI.configured x hx
    cases hres : x.result with
    | ok r' =>
      rw [hres] at hresult
      rw [hresult.2.1] at hr
      cases hr
      exact absurd hp.once hne
    | error workers =>
      rw [hres] at hresult
      exact (hresult.2 r hr).2

/-- Two threads make a candidate each; one publishes, and the other one, in `init_global_runtime`,
drops its candidate. -/
def configureAgainstInit : List (Bool × GlobalAct Bool) :=
  [(false, .configure 2), (false, .go), (false, .create false), (true, .init 1), (true, .go),
    (true, .create true)] ++ List.replicate 3 (false, .go) ++
    [(true, .go), (true, .go), (true, .go), (true, .exit true 0)] ++ List.replicate 4 (true, .go)

/-- They agree in that run. -/
theorem global_runtime_agreed_raced :
    ∃ c, (globalMachine Bool Bool none none).run (globalMachine Bool Bool none none).init
        configureAgainstInit = some c ∧ c.shared.returned = [false] ∧
      c.shared.configured.map ConfigureReturn.result = [.error 2, .ok false] ∧
      GlobalAgreed none none c := by
  have hrun : (globalMachine Bool Bool none none).run (globalMachine Bool Bool none none).init
      configureAgainstInit = some _ := rfl
  exact ⟨_, hrun, rfl, rfl, (global_runtime_agreed (reach_of_run _ hrun)).1⟩

end Hypertile
