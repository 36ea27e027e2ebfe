import Hypertile.Machine.Threads
import Mathlib.Order.WellFounded

/-!
# Runs that end

`M.Ends G s` says that the machine cannot take steps that meet `G` for ever from `s`: the steps are
well-founded below `s`. It is proved by a measure in a well-founded order that each such step lowers
(`Ends.of_measure`). A run that ends can be carried on to a state in which no step that meets `G` is
enabled (`Ends.exists_last`); so what holds in every state of that kind that can be reached is what
the machine comes to.

For threads the measure is a sum over them, to which the thread that moves contributes less
(`Threads.sum_update_lt`); sums are compared one after the other (`lex`) where a step that lowers
one raises another.
-/

namespace Machine

variable {S A : Type*} {M : Machine S A} {G : S → A → Prop} {s s' : S}

/-- No run from `s` of steps that meet `G` goes on for ever. -/
def Ends (M : Machine S A) (G : S → A → Prop) (s : S) : Prop :=
  Acc (fun s' s => ∃ a, G s a ∧ M.step s a = some s') s

/-- No step that meets `G` is enabled in `s`. -/
def Stuck (M : Machine S A) (G : S → A → Prop) (s : S) : Prop :=
  ∀ a, G s a → M.step s a = none

namespace Ends

/-- The measure rule: where each step that meets `G` keeps `I` and lowers a measure in a
well-founded order, every run from a state with `I` ends. -/
theorem of_measure {β : Type*} {r : β → β → Prop} (hr : WellFounded r) (μ : S → β) {I : S → Prop}
    (hstep : ∀ s a s', I s → G s a → M.step s a = some s' → I s' ∧ r (μ s') (μ s))
    (hI : I s) : M.Ends G s := by
  induction hm : μ s using hr.induction generalizing s with
  | h b ih =>
    subst hm
    refine ⟨_, fun s' hs' => ?_⟩
    obtain ⟨a, hG, hst⟩ := hs'
    obtain ⟨hI', hlt⟩ := hstep s a s' hI hG hst
    exact ih (μ s') hlt hI' rfl

/-- The run can be carried on until no step that meets `G` is enabled. -/
theorem exists_last (h : M.Ends G s) : ∃ s', M.Reach G s s' ∧ M.Stuck G s' := by
  induction h with
  | intro s _ ih =>
    by_cases hstuck : M.Stuck G s
    · exact ⟨s, .refl, hstuck⟩
    · obtain ⟨a, hG, hne⟩ : ∃ a, G s a ∧ M.step s a ≠ none := by
        simpa only [Stuck, not_forall, exists_prop] using hstuck
      obtain ⟨s₁, hst⟩ := Option.ne_none_iff_exists'.1 hne
      obtain ⟨s', hreach, hlast⟩ := ih s₁ ⟨a, hG, hst⟩
      exact ⟨s', (Reach.single hG hst).trans hreach, hlast⟩

end Ends

/-- Every step of a run meets the guard every step meets. -/
theorem AllSteps.any : ∀ (as : List A) (s : S), M.AllSteps anyStep s as
  | [], _ => trivial
  | _ :: as, _ => fun s' _ => ⟨trivial, AllSteps.any as s'⟩

/-- Triples of measures, compared one after the other. -/
def lex : ℕ × ℕ × ℕ → ℕ × ℕ × ℕ → Prop :=
  Prod.Lex (· < ·) (Prod.Lex (· < ·) (· < ·))

/-- The order of triples is well-founded. -/
theorem lex_wf : WellFounded lex :=
  WellFounded.prod_lex Nat.lt_wfRel.wf (WellFounded.prod_lex Nat.lt_wfRel.wf Nat.lt_wfRel.wf)

/-- One triple is below another where it is lower in one place and equal in the places before. -/
theorem lex_iff {x y : ℕ × ℕ × ℕ} : lex x y ↔
    x.1 < y.1 ∨ x.1 = y.1 ∧ (x.2.1 < y.2.1 ∨ x.2.1 = y.2.1 ∧ x.2.2 < y.2.2) := by
  simp only [lex, Prod.lex_def]

namespace Threads

variable {ι l : Type*} [DecidableEq ι] [Fintype ι] (g g' : ι → l → ℕ) {f : ι → l} {i : ι} {m' : l}

/-- A sum over the threads is lower when the contribution of the one that moves is. -/
theorem sum_update_lt (hother : ∀ j, j ≠ i → g' j (f j) = g j (f j)) (hlt : g' i m' < g i (f i)) :
    ∑ j, g' j (Function.update f i m' j) < ∑ j, g j (f j) := by
  refine Finset.sum_lt_sum (fun j _ => ?_) ⟨i, Finset.mem_univ i, ?_⟩
  · by_cases hj : j = i
    · subst hj
      rw [Function.update_self]
      exact hlt.le
    · rw [Function.update_of_ne hj, hother j hj]
  · rwa [Function.update_self]

/-- A sum over the threads stays when the contribution of the one that moves does. -/
theorem sum_update_eq (hother : ∀ j, j ≠ i → g' j (f j) = g j (f j)) (heq : g' i m' = g i (f i)) :
    ∑ j, g' j (Function.update f i m' j) = ∑ j, g j (f j) := by
  refine Finset.sum_congr rfl fun j _ => ?_
  by_cases hj : j = i
  · subst hj
    rw [Function.update_self, heq]
  · rw [Function.update_of_ne hj, hother j hj]

end Threads

end Machine
