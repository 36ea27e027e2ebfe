import Hypertile.Machine.Basic
import Mathlib.Algebra.BigOperators.Group.Finset.Basic
import Mathlib.Algebra.Order.BigOperators.Group.Finset
import Mathlib.Data.Fintype.BigOperators

/-!
# Threads over a shared state

A configuration is a shared state and one local state for each thread. A program says what thread
`i` does when the action `α` is chosen for it, on the shared state and its own local state; the
machine `Machine.threads` interleaves the steps of all threads. One step changes the shared state
and the local state of one thread only, so a property of a configuration is kept when it is kept by
the step for the thread that moves (*own*) and for every other thread (*other*).

Four rules follow that shape: `Threads.invariant_local` for a property of each thread,
`Threads.exists_update` for the existence of a thread with a property, `Threads.Mutex.step` for a
lock, and `Threads.total_step` for quantities that the shared state and the threads hold between
them, such as tokens and multisets of items in transit. `Threads.reach_map` is the simulation rule,
for a program whose steps are, seen through maps of the states, those of another.
-/

namespace Machine

/-- A shared state and the local states of the threads `ι`. -/
structure Config (σ l ι : Type*) where
  shared : σ
  loc : ι → l

/-- A configuration seen through a map of the shared states and one of the local states. -/
def Config.map {σ l τ k ι : Type*} (φ : σ → τ) (ψ : l → k) (c : Config σ l ι) : Config τ k ι :=
  ⟨φ c.shared, fun i => ψ (c.loc i)⟩

variable {σ l ι α : Type*} [DecidableEq ι]

/-- The interleavings of a program `prog` that says what one thread does at one action. -/
def threads (prog : ι → σ → l → α → Option (σ × l)) (c₀ : Config σ l ι) :
    Machine (Config σ l ι) (ι × α) where
  init := c₀
  step c a := (prog a.1 c.shared (c.loc a.1) a.2).map
    fun r => ⟨r.1, Function.update c.loc a.1 r.2⟩

namespace Threads

variable {prog : ι → σ → l → α → Option (σ × l)} {c₀ c c' : Config σ l ι}

/-- A step of the interleaving is a step of the program for one thread. -/
theorem step_iff {a : ι × α} : (threads prog c₀).step c a = some c' ↔
    ∃ s' l', prog a.1 c.shared (c.loc a.1) a.2 = some (s', l') ∧
      c' = ⟨s', Function.update c.loc a.1 l'⟩ := by
  simp only [threads, Option.map_eq_some_iff, Prod.exists]
  constructor
  · rintro ⟨s', l', h, rfl⟩; exact ⟨s', l', h, rfl⟩
  · rintro ⟨s', l', h, rfl⟩; exact ⟨s', l', h, rfl⟩

/-- A step of the program for a thread that has just come to `m`, as a step of the interleaving. -/
theorem step_update {i : ι} {a : α} {s s' : σ} {f : ι → l} {m m' : l}
    (h : prog i s m a = some (s', m')) :
    (threads prog c₀).step ⟨s, Function.update f i m⟩ (i, a) =
      some ⟨s', Function.update f i m'⟩ := by
  refine step_iff.2 ⟨s', m', ?_, ?_⟩
  · show prog i s (Function.update f i m i) a = _
    rw [Function.update_self, h]
  · show _ = Config.mk s' (Function.update (Function.update f i m) i m')
    rw [Function.update_idem]

/-- Where the program has no step for a thread that has come to `m`, the interleaving has none. -/
theorem step_update_none {i : ι} {a : α} {s : σ} {f : ι → l} {m : l} (h : prog i s m a = none) :
    (threads prog c₀).step ⟨s, Function.update f i m⟩ (i, a) = none := by
  simp only [threads, Function.update_self, h, Option.map_none]

/-- Replays the actions `as` of one thread. -/
def replay (prog : σ → l → α → Option (σ × l)) : σ → l → List α → Option (σ × l)
  | s, m, [] => some (s, m)
  | s, m, a :: as => (prog s m a).bind fun r => replay prog r.1 r.2 as

/-- A replay of one thread is a run in which the others stand still. -/
theorem reach_of_replay {G : Config σ l ι → ι × α → Prop} {i : ι} : ∀ (as : List α) {s s' : σ}
    {f : ι → l} {m m' : l}, (∀ c, ∀ a ∈ as, G c (i, a)) → replay (prog i) s m as = some (s', m') →
      (threads prog c₀).Reach G ⟨s, Function.update f i m⟩ ⟨s', Function.update f i m'⟩
  | [], _, _, _, _, _, _, h => by cases h; exact .refl
  | a :: as, s, s', f, m, m', hG, h => by
    obtain ⟨⟨s₁, m₁⟩, hst, h⟩ := Option.bind_eq_some_iff.1 h
    have hfirst : (threads prog c₀).Reach G ⟨s, Function.update f i m⟩
        ⟨s₁, Function.update f i m₁⟩ := .single (hG _ a List.mem_cons_self) (step_update hst)
    exact hfirst.trans (reach_of_replay as (fun c b hb => hG c b (List.mem_cons_of_mem a hb)) h)

section
variable {τ k β : Type*} {φ : σ → τ} {ψ : l → k} {prog' : ι → τ → k → β → Option (τ × k)}
  {d₀ : Config τ k ι}

/-- A thread that moves, seen through the maps. -/
theorem map_update (s : σ) (f : ι → l) (i : ι) (m : l) :
    (Config.mk s (Function.update f i m)).map φ ψ =
      ⟨φ s, Function.update (fun j => ψ (f j)) i (ψ m)⟩ :=
  congrArg (Config.mk _) (Function.comp_update ψ f i m)

/-- What a thread does is, seen through the maps, a step of another program, or nothing. -/
def Simulates (prog : ι → σ → l → α → Option (σ × l)) (prog' : ι → τ → k → β → Option (τ × k))
    (φ : σ → τ) (ψ : l → k) : Prop :=
  ∀ i s m a s' m', prog i s m a = some (s', m') →
    (φ s' = φ s ∧ ψ m' = ψ m) ∨ ∃ b, prog' i (φ s) (ψ m) b = some (φ s', ψ m')

/-- The simulation rule for one step. -/
theorem reach_map_step (h : Simulates prog prog' φ ψ) {a : ι × α}
    (hst : (threads prog c₀).step c a = some c') :
    (threads prog' d₀).Reach anyStep (c.map φ ψ) (c'.map φ ψ) := by
  obtain ⟨s', m', hp, rfl⟩ := step_iff.1 hst
  rw [map_update]
  rcases h _ _ _ _ _ _ hp with ⟨hs, hm⟩ | ⟨b, hb⟩
  · have hsame : Function.update (fun j => ψ (c.loc j)) a.1 (ψ (c.loc a.1)) =
        fun j => ψ (c.loc j) := Function.update_eq_self ..
    rw [hs, hm, hsame]
    exact .refl
  · exact .single (a := (a.1, b)) trivial (step_iff.2 ⟨_, _, hb, rfl⟩)

/-- The simulation rule: a run is, seen through the maps, a run of the other program. -/
theorem reach_map_run {G : Config σ l ι → ι × α → Prop} (h : Simulates prog prog' φ ψ)
    (hr : (threads prog c₀).Reach G c c') :
    (threads prog' d₀).Reach anyStep (c.map φ ψ) (c'.map φ ψ) := by
  induction hr with
  | refl => exact .refl
  | tail _ _ hst ih => exact ih.trans (reach_map_step h hst)

/-- The simulation rule for the states reached. -/
theorem reach_map {G : Config σ l ι → ι × α → Prop} (h : Simulates prog prog' φ ψ)
    (hr : (threads prog c₀).Reachable G c) :
    (threads prog' (c₀.map φ ψ)).Reachable anyStep (c.map φ ψ) :=
  reach_map_run h hr

end

/-- The invariant rule for interleavings: `J` is already known of every state of the run, `I` holds
at the start and each step of one thread that meets the guard keeps it. -/
theorem invariant {G : Config σ l ι → ι × α → Prop} {I J : Config σ l ι → Prop}
    (h : (threads prog c₀).Reachable G c) (hJ : ∀ c, (threads prog c₀).Reachable G c → J c)
    (h₀ : I c₀)
    (hstep : ∀ c : Config σ l ι, ∀ i a s' m m', J c → I c → G c (i, a) → c.loc i = m →
      prog i c.shared m a = some (s', m') → I ⟨s', Function.update c.loc i m'⟩) : I c := by
  refine h.invariant_of hJ h₀ ?_
  rintro c ⟨i, a⟩ c' hJc hI hG hst
  obtain ⟨s', m', hp, rfl⟩ := step_iff.1 hst
  exact hstep c i a s' _ m' hJc hI hG rfl hp

/-- The owner and interference rule: `L j` holds of each thread `j` in every state reached, when it
holds at the start, a step of a thread keeps its own `L`, and no step breaks the `L` of another. -/
theorem invariant_local {G : Config σ l ι → ι × α → Prop} {J : Config σ l ι → Prop}
    {L : ι → σ → l → Prop}
    (h : (threads prog c₀).Reachable G c) (hJ : ∀ c, (threads prog c₀).Reachable G c → J c)
    (h₀ : ∀ j, L j c₀.shared (c₀.loc j))
    (own : ∀ c : Config σ l ι, ∀ i a s' m m', J c → G c (i, a) → c.loc i = m → L i c.shared m →
      prog i c.shared m a = some (s', m') → L i s' m')
    (other : ∀ c : Config σ l ι, ∀ i a s' m m' j, J c → G c (i, a) → c.loc i = m → j ≠ i →
      prog i c.shared m a = some (s', m') → L j c.shared (c.loc j) → L j s' (c.loc j))
    (j : ι) : L j c.shared (c.loc j) := by
  refine invariant (I := fun c => ∀ j, L j c.shared (c.loc j)) h hJ h₀ ?_ j
  rintro c i a s' _ m' hJc hI hG rfl hp j
  by_cases hj : j = i
  · subst hj
    simpa using own c j a s' _ m' hJc hG rfl (hI j) hp
  · simpa [Function.update_of_ne hj] using other c i a s' _ m' j hJc hG rfl hj hp (hI j)

/-- Some thread other than `i` has the property `p`. -/
def Others (p : l → Bool) (f : ι → l) (i : ι) : Prop := ∃ j, j ≠ i ∧ p (f j) = true

omit [DecidableEq ι] in
/-- The threads that have a property, split at thread `i`. -/
theorem exists_split {p : l → Bool} {f : ι → l} (i : ι) :
    (∃ j, p (f j) = true) ↔ p (f i) = true ∨ Others p f i := by
  constructor
  · rintro ⟨j, hj⟩
    by_cases hji : j = i
    · exact .inl (hji ▸ hj)
    · exact .inr ⟨j, hji, hj⟩
  · rintro (h | ⟨j, -, hj⟩)
    · exact ⟨i, h⟩
    · exact ⟨j, hj⟩

/-- After a step of thread `i`, the threads that have a property are the others that had it and
possibly `i`. -/
theorem exists_update {p : l → Bool} {f : ι → l} {i : ι} {l' : l} :
    (∃ j, p (Function.update f i l' j) = true) ↔ p l' = true ∨ Others p f i := by
  simpa [Others] using Function.exists_update_iff f fun _ m => p m = true

/-! ## One thread at most -/

/-- The rule for a property that one thread at most has: a thread that comes to have it is the only
one. -/
theorem unique_update {p : l → Prop} {f : ι → l} {i : ι} {m' : l}
    (h : ∀ j k, p (f j) → p (f k) → j = k) (hnew : p m' → ∀ j, j ≠ i → ¬ p (f j)) :
    ∀ j k, p (Function.update f i m' j) → p (Function.update f i m' k) → j = k := by
  intro j k hj hk
  by_cases hji : j = i
  · by_cases hki : k = i
    · rw [hji, hki]
    · subst hji
      rw [Function.update_self] at hj
      rw [Function.update_of_ne hki] at hk
      exact absurd hk (hnew hj k hki)
  · rw [Function.update_of_ne hji] at hj
    by_cases hki : k = i
    · subst hki
      rw [Function.update_self] at hk
      exact absurd hj (hnew hk j hji)
    · rw [Function.update_of_ne hki] at hk
      exact h j k hj hk

/-! ## Locks -/

/-- A lock that the shared state records and that program points hold: the threads at such a point
are at most one, and the lock is taken while there is one. -/
structure Mutex (locked : Bool) (holds : l → Bool) (f : ι → l) : Prop where
  locked_of_holds : ∀ {i}, holds (f i) = true → locked = true
  unique : ∀ {i j}, holds (f i) = true → holds (f j) = true → i = j

omit [DecidableEq ι] in
/-- A lock that no thread holds. -/
theorem Mutex.free {locked : Bool} {holds : l → Bool} {f : ι → l} (h : ∀ i, holds (f i) = false) :
    Mutex locked holds f where
  locked_of_holds {i} hi := by
    rw [h i] at hi
    cases hi
  unique {i _} hi := by
    rw [h i] at hi
    cases hi

/-- The rule for a lock: a step that comes to hold it has held it or finds it free, and a step that
does not hold it before or after leaves it as it is. -/
theorem Mutex.step {locked locked' : Bool} {holds : l → Bool} {f : ι → l} {i : ι} {m' : l}
    (h : Mutex locked holds f)
    (hold : holds m' = true → locked' = true ∧ (holds (f i) = true ∨ locked = false))
    (keep : holds (f i) = false → holds m' = false → locked' = locked) :
    Mutex locked' holds (Function.update f i m') := by
  -- no other thread holds the lock if the moving thread holds it before or after
  have alone : ∀ j, j ≠ i → holds (f j) = true → holds (f i) = false ∧ holds m' = false := by
    intro j hj hjh
    have hi : holds (f i) = false := Bool.eq_false_iff.2 fun hi => hj (h.unique hjh hi)
    refine ⟨hi, Bool.eq_false_iff.2 fun hm => ?_⟩
    rcases (hold hm).2 with hi' | hfree
    · rw [hi] at hi'
      cases hi'
    · rw [h.locked_of_holds hjh] at hfree
      cases hfree
  refine ⟨fun {j} hj => ?_, fun {j k} hj hk => ?_⟩
  · by_cases hji : j = i
    · subst hji
      rw [Function.update_self] at hj
      exact (hold hj).1
    · rw [Function.update_of_ne hji] at hj
      obtain ⟨hi, hm⟩ := alone j hji hj
      rw [keep hi hm, h.locked_of_holds hj]
  · refine unique_update (p := fun m => holds m = true) (fun _ _ => h.unique) ?_ j k hj hk
    intro hm j hji hjh
    rw [(alone j hji hjh).2] at hm
    cases hm

/-- The rule for who holds a taken lock: a step that gives it up frees it, and a step that does not
hold it before or after leaves it as it is. -/
theorem held_step {locked locked' : Bool} {holds : l → Bool} {f : ι → l} {i : ι} {m' : l}
    (h : locked = true → ∃ j, holds (f j) = true)
    (free : holds (f i) = true → holds m' = false → locked' = false)
    (keep : holds (f i) = false → holds m' = false → locked' = locked) :
    locked' = true → ∃ j, holds (Function.update f i m' j) = true := by
  intro hlocked
  rw [exists_update]
  cases hm : holds m' with
  | true => exact .inl rfl
  | false =>
    right
    cases hi : holds (f i) with
    | true =>
      rw [free hi hm] at hlocked
      cases hlocked
    | false =>
      rw [keep hi hm] at hlocked
      rcases (exists_split i).1 (h hlocked) with hself | hothers
      · rw [hi] at hself
        cases hself
      · exact hothers

/-- How often thread `i` moves in a list of actions. -/
def moves (i : ι) (as : List (ι × α)) : ℕ := as.countP fun a => decide (a.1 = i)

/-- The measure rule: where each step that keeps thread `i` busy lowers a measure of its local
state, up to what it adds to a quantity `ν` of the shared state that no other thread lowers, a run
all along which it is busy has at most so many moves of it, however the others move. -/
theorem moves_add_le {I : Config σ l ι → Prop} (busy : l → Bool) (μ : l → ℕ) (ν : σ → ℕ) (i : ι)
    (hI : ∀ c a c', I c → (threads prog c₀).step c a = some c' → I c')
    (own : ∀ c : Config σ l ι, ∀ a s' m', I c → busy (c.loc i) = true →
      prog i c.shared (c.loc i) a = some (s', m') → busy m' = true →
        μ m' + ν c.shared < μ (c.loc i) + ν s')
    (other : ∀ c : Config σ l ι, ∀ j a s' m', I c → j ≠ i →
      prog j c.shared (c.loc j) a = some (s', m') → ν c.shared ≤ ν s') :
    ∀ (as : List (ι × α)) {c c' : Config σ l ι}, I c → (threads prog c₀).run c as = some c' →
      (threads prog c₀).AllStates (fun c => busy (c.loc i) = true) c as →
      moves i as + ν c.shared ≤ μ (c.loc i) + ν c'.shared
  | [], c, _, _, hrun, _ => by
    cases hrun
    simp [moves]
  | (j, a) :: as, c, c', hIc, hrun, hall => by
    obtain ⟨c₁, hst, hrun⟩ := Option.bind_eq_some_iff.1 hrun
    obtain ⟨hbusy, hrest⟩ := hall
    have ih := moves_add_le busy μ ν i hI own other as (hI c (j, a) c₁ hIc hst) hrun (hrest c₁ hst)
    have hbusy₁ : busy (c₁.loc i) = true := (hrest c₁ hst).head
    obtain ⟨s', m', hp, rfl⟩ := step_iff.1 hst
    by_cases hji : j = i
    · subst hji
      simp only [Function.update_self] at ih hbusy₁
      have hlt := own c a s' m' hIc hbusy hp hbusy₁
      simp only [moves, List.countP_cons, decide_true, if_true] at ih ⊢
      omega
    · simp only [Function.update_of_ne (Ne.symm hji)] at ih
      have hle := other c j a s' m' hIc hji hp
      simp only [moves, List.countP_cons, decide_eq_true_eq, hji, if_false] at ih ⊢
      omega

/-- The measure rule for a measure of the local state alone. -/
theorem moves_le {I : Config σ l ι → Prop} (busy : l → Bool) (μ : l → ℕ) (i : ι)
    (hI : ∀ c a c', I c → (threads prog c₀).step c a = some c' → I c')
    (hμ : ∀ c : Config σ l ι, ∀ a s' m', I c → busy (c.loc i) = true →
      prog i c.shared (c.loc i) a = some (s', m') → busy m' = true → μ m' < μ (c.loc i))
    (as : List (ι × α)) {c c' : Config σ l ι} (hIc : I c)
    (hrun : (threads prog c₀).run c as = some c')
    (hall : (threads prog c₀).AllStates (fun c => busy (c.loc i) = true) c as) :
    moves i as ≤ μ (c.loc i) :=
  moves_add_le busy μ (fun _ => 0) i hI hμ (fun _ _ _ _ _ _ _ _ => le_rfl) as hIc hrun hall

/-! ## Quantities held by the shared state and the threads -/

/-- How a sum over a family changes with one member of it. -/
theorem sum_update {M : Type*} [AddCommMonoid M] {s : Finset ι} {i : ι} (hi : i ∈ s)
    (g : ι → l → M) (f : ι → l) (b : l) :
    ∑ j ∈ s, g j (Function.update f i b j) + g i (f i) = ∑ j ∈ s, g j (f j) + g i b := by
  simp only [Function.apply_update g f i b]
  rw [Finset.sum_update_of_mem hi, Finset.sdiff_singleton_eq_erase,
    ← Finset.add_sum_erase s (fun j => g j (f j)) hi]
  calc g i b + ∑ j ∈ s.erase i, g j (f j) + g i (f i)
      = g i b + (g i (f i) + ∑ j ∈ s.erase i, g j (f j)) := by rw [add_assoc, add_comm (g i (f i))]
    _ = g i (f i) + ∑ j ∈ s.erase i, g j (f j) + g i b := add_comm _ _

/-- The rule for a record of what all members of a family hold: a step of one member that changes
the record as it changes what it holds keeps it. -/
theorem eq_sum_update {M : Type*} [AddCancelCommMonoid M] [Fintype ι] {g : ι → l → M} {f : ι → l}
    {i : ι} {b : l} {x x' : M} (h : x = ∑ j, g j (f j)) (hx : x' + g i (f i) = x + g i b) :
    x' = ∑ j, g j (Function.update f i b j) := by
  have hsum := sum_update (Finset.mem_univ i) g f b
  rw [← h, ← hx] at hsum
  exact (add_right_cancel hsum).symm

omit [DecidableEq ι] in
/-- A count of what all members hold is at least what one of them holds. -/
theorem le_of_eq_sum [Fintype ι] {g : ι → l → ℕ} {f : ι → l} {n : ℕ} (h : n = ∑ j, g j (f j))
    (i : ι) : g i (f i) ≤ n := by
  rw [h]
  exact Finset.single_le_sum (f := fun j => g j (f j)) (fun _ _ => Nat.zero_le _)
    (Finset.mem_univ i)

section
variable [Fintype ι] {M : Type*} [AddCommMonoid M]

/-- What the shared state and all threads hold together of a quantity. -/
def total (w₀ : σ → M) (w : l → M) (c : Config σ l ι) : M :=
  w₀ c.shared + ∑ i, w (c.loc i)

/-- The total is what the shared state and thread `i` hold, and what the other threads hold, which
does not change when thread `i` moves. -/
theorem total_update (w₀ : σ → M) (w : l → M) (s : σ) (f : ι → l) (i : ι) (l' : l) :
    total w₀ w ⟨s, Function.update f i l'⟩ =
      w₀ s + w l' + ∑ j ∈ Finset.univ.erase i, w (f j) := by
  have hrest : ∑ j ∈ Finset.univ.erase i, w (Function.update f i l' j) =
      ∑ j ∈ Finset.univ.erase i, w (f j) :=
    Finset.sum_congr rfl fun j hj => by rw [Function.update_of_ne (Finset.ne_of_mem_erase hj)]
  rw [total, ← Finset.add_sum_erase _ _ (Finset.mem_univ i), hrest]
  simp only [Function.update_self, add_assoc]

/-- The total of a configuration, split at thread `i`. -/
theorem total_split (w₀ : σ → M) (w : l → M) (c : Config σ l ι) (i : ι) :
    total w₀ w c = w₀ c.shared + w (c.loc i) + ∑ j ∈ Finset.univ.erase i, w (c.loc j) := by
  conv_lhs => rw [show c = ⟨c.shared, Function.update c.loc i (c.loc i)⟩ by simp]
  exact total_update ..

omit [DecidableEq ι] in
/-- An additive image of a total is the total of the images. -/
theorem map_total {N : Type*} [AddCommMonoid N] (f : M →+ N) (w₀ : σ → M) (w : l → M)
    (c : Config σ l ι) : f (total w₀ w c) = total (fun s => f (w₀ s)) (fun m => f (w m)) c := by
  simp only [total, map_add, map_sum]

/-- A step that moves a quantity between the shared state and the moving thread keeps the total. -/
theorem total_step {w₀ : σ → M} {w : l → M} {i : ι} {s' : σ} {l' : l}
    (h : w₀ s' + w l' = w₀ c.shared + w (c.loc i)) :
    total w₀ w ⟨s', Function.update c.loc i l'⟩ = total w₀ w c := by
  rw [total_update, total_split w₀ w c i, h]

/-- A step that turns `n` of a quantity into `n'` turns `n` of the total into `n'`. -/
theorem total_step_transfer {w₀ : σ → M} {w : l → M} {i : ι} {s' : σ} {l' : l} {n n' : M}
    (h : w₀ s' + w l' + n = w₀ c.shared + w (c.loc i) + n') :
    total w₀ w ⟨s', Function.update c.loc i l'⟩ + n = total w₀ w c + n' := by
  rw [total_update, total_split w₀ w c i, add_right_comm, h, add_right_comm]

end

section
variable [Fintype ι] {w₀ : σ → ℕ} {w : l → ℕ}

/-- A step that creates nothing does not raise the total. -/
theorem total_step_le {i : ι} {s' : σ} {l' : l}
    (h : w₀ s' + w l' ≤ w₀ c.shared + w (c.loc i)) :
    total w₀ w ⟨s', Function.update c.loc i l'⟩ ≤ total w₀ w c := by
  rw [total_update, total_split w₀ w c i]
  exact Nat.add_le_add_right h _

/-- What the shared state and one thread hold is at most the total. -/
theorem le_total (w₀ : σ → ℕ) (w : l → ℕ) (c : Config σ l ι) (i : ι) :
    w₀ c.shared + w (c.loc i) ≤ total w₀ w c := by
  rw [total_split w₀ w c i]
  exact Nat.le_add_right ..

/-- What two threads hold is at most the total. -/
theorem add_le_total (w₀ : σ → ℕ) (w : l → ℕ) (c : Config σ l ι) {i j : ι} (hij : i ≠ j) :
    w₀ c.shared + w (c.loc i) + w (c.loc j) ≤ total w₀ w c := by
  rw [total_split w₀ w c i]
  have hj : j ∈ Finset.univ.erase i := Finset.mem_erase.2 ⟨hij.symm, Finset.mem_univ j⟩
  exact Nat.add_le_add_left (Finset.single_le_sum (f := fun j => w (c.loc j))
    (fun _ _ => Nat.zero_le _) hj) _

/-- With a total of at most one, two threads that both hold something are one thread. -/
theorem holder_unique (h : total w₀ w c ≤ 1) {i j : ι} (hi : 0 < w (c.loc i))
    (hj : 0 < w (c.loc j)) : i = j := by
  by_contra hij
  have := add_le_total w₀ w c hij
  omega

omit [DecidableEq ι] in
/-- A positive total is held by the shared state or by some thread. -/
theorem exists_holder (h : 0 < total w₀ w c) : 0 < w₀ c.shared ∨ ∃ i, 0 < w (c.loc i) := by
  by_contra hno
  rw [not_or, not_exists] at hno
  have hz : ∑ i, w (c.loc i) = 0 := Finset.sum_eq_zero fun i _ => by
    have := hno.2 i
    omega
  rw [total, hz] at h
  omega

end

end Threads

end Machine
