import Mathlib.Data.List.Basic

/-!
# Machines with an executable step

A machine is an initial state and a guarded step function: `step s a` is the state after the action
`a`, or `none` when `a` is not enabled in `s`. The same definition is replayed on a concrete list of
actions (`Machine.run`) and quantified over (`Machine.Reach`).

Reachability carries a guard `G : S → A → Prop`, a condition on the state before a step and the
action taken: `M.Reach G s s'` says that `s'` is reached from `s` by steps that all meet `G`. The
unguarded notion is `Reach` at the guard that is always true. `Reach.invariant` is the induction
rule, and `allStates_iff_allSteps` the exact one: where a condition on a step decides whether the
step keeps a property, the property holds all along a run if and only if every step of the run meets
the condition.
-/

/-- A machine: an initial state and a step function that is `none` at an action not enabled. -/
structure Machine (S A : Type*) where
  init : S
  step : S → A → Option S

namespace Machine

variable {S A : Type*} (M : Machine S A)

/-- Replays the actions `as` from `s`; `none` when one of them is not enabled. -/
def run (s : S) : List A → Option S
  | [] => some s
  | a :: as => (M.step s a).bind fun s' => run s' as

/-- The states reached from `s₀` by steps that meet the guard `G`. -/
inductive Reach (G : S → A → Prop) (s₀ : S) : S → Prop
  | refl : Reach G s₀ s₀
  | tail {s s' : S} {a : A} : Reach G s₀ s → G s a → M.step s a = some s' → Reach G s₀ s'

/-- The guard every step meets. -/
def anyStep : S → A → Prop := fun _ _ => True

/-- The states the machine reaches from its initial state by steps that meet `G`. -/
abbrev Reachable (G : S → A → Prop) (s : S) : Prop := M.Reach G M.init s

variable {M} {G H : S → A → Prop} {s₀ s s' : S}

namespace Reach

/-- A step that meets the guard, as a run of its own. -/
theorem single {a : A} (hG : G s a) (h : M.step s a = some s') : M.Reach G s s' :=
  .tail .refl hG h

/-- Runs compose. -/
theorem trans (h : M.Reach G s₀ s) (h' : M.Reach G s s') : M.Reach G s₀ s' := by
  induction h' with
  | refl => exact h
  | tail _ hG hst ih => exact .tail ih hG hst

/-- A run under a guard is a run under every weaker one. -/
theorem mono (hGH : ∀ s a, G s a → H s a) (h : M.Reach G s₀ s) : M.Reach H s₀ s := by
  induction h with
  | refl => exact .refl
  | tail _ hG hst ih => exact .tail ih (hGH _ _ hG) hst

/-- A property that holds at the start of a run and that every step meeting the guard keeps holds at
its end. -/
theorem invariant {I : S → Prop} (h : M.Reach G s₀ s) (h₀ : I s₀)
    (hstep : ∀ s a s', I s → G s a → M.step s a = some s' → I s') : I s := by
  induction h with
  | refl => exact h₀
  | tail _ hG hst ih => exact hstep _ _ _ ih hG hst

/-- `Reach.invariant` over a property that is already known of every state of the run. -/
theorem invariant_of {I J : S → Prop} (h : M.Reach G s₀ s) (hJ : ∀ s, M.Reach G s₀ s → J s)
    (h₀ : I s₀) (hstep : ∀ s a s', J s → I s → G s a → M.step s a = some s' → I s') : I s := by
  induction h with
  | refl => exact h₀
  | tail hr hG hst ih => exact hstep _ _ _ (hJ _ hr) ih hG hst

end Reach

/-- A replay is a run. -/
theorem reach_of_run : ∀ (as : List A) {s s' : S}, M.run s as = some s' → M.Reach anyStep s s'
  | [], _, _, h => by cases h; exact .refl
  | a :: as, s, s', h => by
    obtain ⟨s₁, h₁, h⟩ := Option.bind_eq_some_iff.1 h
    exact (Reach.single trivial h₁).trans (reach_of_run as h)

/-- A replay whose steps all meet a decidable guard, as a test. -/
def runIf (M : Machine S A) (G : S → A → Prop) [∀ s a, Decidable (G s a)] (s : S) :
    List A → Option S
  | [] => some s
  | a :: as => if G s a then (M.step s a).bind fun s' => runIf M G s' as else none

/-- A guarded replay is a guarded run. -/
theorem reach_of_runIf [∀ s a, Decidable (G s a)] :
    ∀ (as : List A) {s s' : S}, M.runIf G s as = some s' → M.Reach G s s'
  | [], _, _, h => by cases h; exact .refl
  | a :: as, s, s', h => by
    unfold runIf at h
    split at h
    · next hG =>
      obtain ⟨s₁, h₁, h⟩ := Option.bind_eq_some_iff.1 h
      exact (Reach.single hG h₁).trans (reach_of_runIf as h)
    · cases h

/-! ## Properties along a run -/

/-- Every step of the replay of a list of actions meets `G`. -/
def AllSteps (M : Machine S A) (G : S → A → Prop) : S → List A → Prop
  | _, [] => True
  | s, a :: as => ∀ s', M.step s a = some s' → G s a ∧ AllSteps M G s' as

/-- Every state of the replay of a list of actions, the first included, satisfies `P`. -/
def AllStates (M : Machine S A) (P : S → Prop) : S → List A → Prop
  | s, [] => P s
  | s, a :: as => P s ∧ ∀ s', M.step s a = some s' → AllStates M P s' as

/-- The first state of a replay is one of its states. -/
theorem AllStates.head {P : S → Prop} : ∀ {as : List A} {s : S}, M.AllStates P s as → P s
  | [], _, h => h
  | _ :: _, _, h => h.1

/-- Where `G` decides whether a step keeps `P`, a run from a state with `P` has `P` in all its
states exactly when all its steps meet `G`. The invariant `I` is what the decision rests on. -/
theorem allStates_iff_allSteps {I P : S → Prop}
    (hI : ∀ s a s', I s → M.step s a = some s' → I s')
    (hG : ∀ s a s', I s → P s → M.step s a = some s' → (P s' ↔ G s a)) :
    ∀ {as : List A} {s : S}, I s → P s → (M.AllStates P s as ↔ M.AllSteps G s as)
  | [], _, _, hP => ⟨fun _ => trivial, fun _ => hP⟩
  | a :: as, s, hIs, hP => by
    have key : ∀ s', M.step s a = some s' →
        (M.AllStates P s' as ↔ G s a ∧ M.AllSteps G s' as) := by
      intro s' hst
      have hI' := hI s a s' hIs hst
      constructor
      · intro h
        have hP' : P s' := h.head
        exact ⟨(hG s a s' hIs hP hst).1 hP', (allStates_iff_allSteps hI hG hI' hP').1 h⟩
      · rintro ⟨hg, h⟩
        have hP' := (hG s a s' hIs hP hst).2 hg
        exact (allStates_iff_allSteps hI hG hI' hP').2 h
    constructor
    · intro h s' hst
      exact (key s' hst).1 (h.2 s' hst)
    · intro h
      exact ⟨hP, fun s' hst => (key s' hst).2 (h s' hst)⟩

/-- Where every step that meets `G` keeps `I`, a run from a state with `I` whose steps all meet `G`
has in all its states what follows from `I`. -/
theorem AllSteps.allStates {I P : S → Prop} (hP : ∀ s, I s → P s)
    (hstep : ∀ s a s', I s → G s a → M.step s a = some s' → I s') :
    ∀ {as : List A} {s : S}, I s → M.AllSteps G s as → M.AllStates P s as
  | [], s, hI, _ => hP s hI
  | a :: _, s, hI, h => ⟨hP s hI, fun s' hst =>
      AllSteps.allStates hP hstep (hstep s a s' hI (h s' hst).1 hst) (h s' hst).2⟩

/-- A run whose steps all meet the guard is a guarded run. -/
theorem AllSteps.reach : ∀ {as : List A} {s s' : S}, M.AllSteps G s as → M.run s as = some s' →
    M.Reach G s s'
  | [], _, _, _, hrun => by cases hrun; exact .refl
  | a :: as, s, s', h, hrun => by
    obtain ⟨s₁, hst, hrun⟩ := Option.bind_eq_some_iff.1 hrun
    obtain ⟨hG, hrest⟩ := h s₁ hst
    exact (Reach.single hG hst).trans (hrest.reach hrun)

/-- A guarded replay is a replay, all steps of which meet the guard. -/
theorem allSteps_of_runIf [∀ s a, Decidable (G s a)] : ∀ (as : List A) {s s' : S},
    M.runIf G s as = some s' → M.AllSteps G s as ∧ M.run s as = some s'
  | [], _, _, h => ⟨trivial, h⟩
  | a :: as, s, s', h => by
    unfold runIf at h
    split at h
    · next hG =>
      obtain ⟨s₁, hst, h⟩ := Option.bind_eq_some_iff.1 h
      obtain ⟨hall, hrun⟩ := allSteps_of_runIf as h
      refine ⟨fun s₂ hst₂ => ?_, Option.bind_eq_some_iff.2 ⟨s₁, hst, hrun⟩⟩
      rw [hst] at hst₂
      cases hst₂
      exact ⟨hG, hall⟩
    · cases h

/-- What every state has holds along every run. -/
theorem AllStates.intro {P : S → Prop} (h : ∀ s, P s) : ∀ {as : List A} {s : S}, M.AllStates P s as
  | [], s => h s
  | _ :: _, s => ⟨h s, fun _ _ => AllStates.intro h⟩

/-- What a step into a state with `P` keeps, a run has at its end if all its states have `P`. -/
theorem AllStates.keeps {I P D : S → Prop} (hI : ∀ s a s', I s → M.step s a = some s' → I s')
    (hD : ∀ s a s', I s → D s → M.step s a = some s' → P s' → D s') :
    ∀ (as : List A) {s s' : S}, I s → D s → M.AllStates P s as → M.run s as = some s' → D s'
  | [], _, _, _, hd, _, hrun => by cases hrun; exact hd
  | a :: as, s, s', hIs, hd, hall, hrun => by
    obtain ⟨s₁, hst, hrun⟩ := Option.bind_eq_some_iff.1 hrun
    have hrest := hall.2 s₁ hst
    exact AllStates.keeps hI hD as (hI s a s₁ hIs hst) (hD s a s₁ hIs hd hst hrest.head) hrest hrun

/-- Where every step that does not meet `G` leads to a state with `D`, and `D` lasts as long as the
states have `P`, a run whose states all have `P` has only steps that meet `G`, or ends in a state
with `D`. -/
theorem AllStates.allSteps_or {I P D : S → Prop}
    (hI : ∀ s a s', I s → M.step s a = some s' → I s')
    (hD : ∀ s a s', I s → D s → M.step s a = some s' → P s' → D s')
    (hG : ∀ s a s', I s → ¬ G s a → M.step s a = some s' → D s') :
    ∀ (as : List A) {s s' : S}, I s → M.AllStates P s as → M.run s as = some s' →
      M.AllSteps G s as ∨ D s'
  | [], _, _, _, _, _ => .inl trivial
  | a :: as, s, s', hIs, hall, hrun => by
    obtain ⟨s₁, hst, hrun⟩ := Option.bind_eq_some_iff.1 hrun
    have hI₁ := hI s a s₁ hIs hst
    have hrest := hall.2 s₁ hst
    by_cases hg : G s a
    · rcases AllStates.allSteps_or hI hD hG as hI₁ hrest hrun with hsteps | hd
      · left
        intro s₂ hst₂
        rw [hst] at hst₂
        cases hst₂
        exact ⟨hg, hsteps⟩
      · exact .inr hd
    · exact .inr (AllStates.keeps hI hD as hI₁ (hG s a s₁ hIs hg hst) hrest hrun)

/-- Where every step that does not meet `G` leads to a state with `D`, and `D` lasts, a run has only
steps that meet `G`, or ends in a state with `D`. -/
theorem allSteps_or_of_run {I D : S → Prop}
    (hI : ∀ s a s', I s → M.step s a = some s' → I s')
    (hD : ∀ s a s', I s → D s → M.step s a = some s' → D s')
    (hG : ∀ s a s', I s → ¬ G s a → M.step s a = some s' → D s') (as : List A) {s s' : S}
    (hIs : I s) (hrun : M.run s as = some s') : M.AllSteps G s as ∨ D s' :=
  AllStates.allSteps_or (P := fun _ => True) hI (fun s a s' hIs hd hst _ => hD s a s' hIs hd hst) hG
    as hIs (.intro fun _ => trivial) hrun

/-- The last state of a run is one of its states. -/
theorem AllStates.last {P : S → Prop} :
    ∀ {as : List A} {s s' : S}, M.AllStates P s as → M.run s as = some s' → P s'
  | [], _, _, h, hrun => by cases hrun; exact h
  | _ :: _, _, _, h, hrun => by
    obtain ⟨s₁, hst, hrun⟩ := Option.bind_eq_some_iff.1 hrun
    exact (h.2 s₁ hst).last hrun

/-- The measure rule: where each step that meets `G` lowers a measure `μ`, up to what it adds to a
quantity `ν`, a run of such steps is no longer than the measure at its start and what it adds. -/
theorem AllSteps.length_le {I : S → Prop} (μ ν : S → ℕ)
    (hstep : ∀ s a s', I s → G s a → M.step s a = some s' → I s' ∧ μ s' + ν s < μ s + ν s') :
    ∀ (as : List A) {s s' : S}, I s → M.AllSteps G s as → M.run s as = some s' →
      I s' ∧ as.length + μ s' + ν s ≤ μ s + ν s'
  | [], s, s', hI, _, hrun => by
    cases hrun
    exact ⟨hI, by simp⟩
  | a :: as, s, s', hI, hall, hrun => by
    obtain ⟨s₁, hst, hrun⟩ := Option.bind_eq_some_iff.1 hrun
    obtain ⟨hG, hrest⟩ := hall s₁ hst
    obtain ⟨hI₁, hlt⟩ := hstep s a s₁ hI hG hst
    obtain ⟨hI', hle⟩ := AllSteps.length_le μ ν hstep as hI₁ hrest hrun
    refine ⟨hI', ?_⟩
    simp only [List.length_cons]
    omega

/-- What the steps of the replay of a list of actions cost, at a cost for each step. -/
def cost (M : Machine S A) (f : S → A → S → ℕ) : S → List A → ℕ
  | _, [] => 0
  | s, a :: as =>
    match M.step s a with
    | some s' => f s a s' + cost M f s' as
    | none => 0

/-- The rule for costs: where each step that meets `G` keeps an account `I s k` of what has been
spent, a run of such steps does. -/
theorem AllSteps.cost {I : S → ℕ → Prop} (f : S → A → S → ℕ)
    (hstep : ∀ s a s' k, I s k → G s a → M.step s a = some s' → I s' (k + f s a s')) :
    ∀ (as : List A) {s s' : S} {k : ℕ}, I s k → M.AllSteps G s as → M.run s as = some s' →
      I s' (k + M.cost f s as)
  | [], _, _, _, hI, _, hrun => by cases hrun; exact hI
  | a :: as, s, s', k, hI, hall, hrun => by
    obtain ⟨s₁, hst, hrun⟩ := Option.bind_eq_some_iff.1 hrun
    obtain ⟨hG, hrest⟩ := hall s₁ hst
    have hI' := AllSteps.cost f hstep as (hstep s a s₁ k hI hG hst) hrest hrun
    rw [Nat.add_assoc] at hI'
    simpa only [Machine.cost, hst] using hI'

/-! ## Repeating one action -/

/-- Repeating the action `a` from `s`, until it is not enabled, ends in `s'`. -/
inductive Settles (M : Machine S A) (a : A) : S → S → Prop
  | done {s : S} (h : M.step s a = none) : Settles M a s s
  | step {s s₁ s' : S} (h : M.step s a = some s₁) (h' : Settles M a s₁ s') : Settles M a s s'

/-- It ends in one state. -/
theorem Settles.unique {a : A} {s s₁ s₂ : S} (h₁ : M.Settles a s s₁) (h₂ : M.Settles a s s₂) :
    s₁ = s₂ := by
  induction h₁ with
  | done hd =>
    cases h₂ with
    | done => rfl
    | step hs => rw [hd] at hs; cases hs
  | step hs _ ih =>
    cases h₂ with
    | done hd => rw [hd] at hs; cases hs
    | step hs' h₂ =>
      rw [hs] at hs'
      cases hs'
      exact ih h₂

end Machine
