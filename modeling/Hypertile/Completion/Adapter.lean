import Hypertile.Completion.ExactlyOnce
import Mathlib.Data.List.Infix

/-!
# The adapter of done callbacks

The model of a Python callable, and of the closure that `wrap_done_callback` makes of one: it calls
the callable without arguments, and where this call fails with a `TypeError` that reads like that of
a missing argument, once more with the task.

The text of the error is all that tells a call that did not fit from a body that failed, so a body
is entered exactly once if and only if the text tells the truth (`entered_once_iff`): a callable
that takes the task or nothing must not raise such an error itself, and one that needs the task must
raise it for the call that does not fit. Functions do so (`function_entered_once`). Methods of the
builtin types do not: they say how many arguments they take (`append_never_entered`).
-/

namespace Hypertile

/-- `contains` of a Rust string. -/
def contains (text pattern : String) : Bool := decide (pattern.toList <:+: text.toList)

/-- A Python exception: its type, whether this is `TypeError` or a subclass, and the text of its
value. -/
structure PyException where
  typeName : String
  isTypeError : Bool
  message : String
  deriving DecidableEq

/-- `to_string` of a `PyErr`. -/
def PyException.text (err : PyException) : String := err.typeName ++ ": " ++ err.message

/-- A Python callable. The objects that it is called with are of type `τ`, and `σ` is the state of
the interpreter. -/
structure PyCallable (σ τ : Type) where
  /-- The numbers of positional arguments that fit its parameters. -/
  accepts : ℕ → Bool
  /-- The text of the `TypeError` that a call with another number raises. -/
  arityMessage : ℕ → String
  /-- What its body does, and whether it returns or raises. -/
  body : List τ → σ → σ × Except PyException Unit

/-- The state of the interpreter, with a record of the arguments that the body of the callable was
entered with, in order. -/
structure CallState (σ τ : Type) where
  state : σ
  entered : List (List τ)
  deriving DecidableEq

section
variable {σ τ : Type}

/-- A call of a callable: its body is entered if the arguments fit. -/
def PyCallable.call (cb : PyCallable σ τ) (args : List τ) (w : CallState σ τ) :
    CallState σ τ × Except PyException Unit :=
  if cb.accepts args.length then
    let (state, outcome) := cb.body args w.state
    (⟨state, w.entered ++ [args]⟩, outcome)
  else (w, .error ⟨"TypeError", true, cb.arityMessage args.length⟩)

/-- The closure that `wrap_done_callback` makes, when it is called. -/
def wrapDoneCallback (cb : PyCallable σ τ) (target : τ) (w : CallState σ τ) :
    CallState σ τ × Except PyException Unit :=
  match cb.call [] w with
  | (w, .ok ()) => (w, .ok ())
  | (w, .error err) =>
    if err.isTypeError then
      if contains err.text "missing" && contains err.text "required positional argument" then
        cb.call [target] w
      else (w, .error err)
    else (w, .error err)

/-! ## The condition -/

/-- The exception reads like that of a call with an argument missing. -/
def PyException.readsMissing (err : PyException) : Bool :=
  err.isTypeError &&
    (contains err.text "missing" && contains err.text "required positional argument")

/-- The body, entered without arguments, raises an exception that reads like that of a call with an
argument missing. -/
def PyCallable.bodyReadsMissing (cb : PyCallable σ τ) (state : σ) : Bool :=
  match (cb.body [] state).2 with
  | .ok () => false
  | .error err => err.readsMissing

/-- The exception of a call without arguments that does not fit reads like that. -/
def PyCallable.arityReadsMissing (cb : PyCallable σ τ) : Bool :=
  PyException.readsMissing ⟨"TypeError", true, cb.arityMessage 0⟩

/-- What is claimed of a wrapped callback: the body is entered once, with no argument if none is
accepted, and otherwise with the task. -/
def PyCallable.EnteredOnce (cb : PyCallable σ τ) (target : τ) (w : CallState σ τ) : Prop :=
  (wrapDoneCallback cb target w).1.entered =
    w.entered ++ [if cb.accepts 0 then [] else [target]]

/-! ## The callable in the queue of callbacks -/

/-- What the queue of callbacks keeps of an exception. -/
def PyException.callError (err : PyException) : CallError := ⟨err.isTypeError, contains err.text⟩

/-- What the queue of callbacks keeps of a callable that is called in this state. -/
def PyCallable.callable (cb : PyCallable σ τ) (target : τ) (w : CallState σ τ) : Callable where
  call0 := ⟨cb.accepts 0, (cb.call [] w).2.mapError PyException.callError⟩
  call1 := ⟨cb.accepts 1,
    (cb.call [target] (cb.call [] w).1).2.mapError PyException.callError⟩

namespace PyCallable

variable (cb : PyCallable σ τ) (target : τ) (w : CallState σ τ)

/-- A call enters the body if the arguments fit. -/
theorem entered_call (args : List τ) :
    (cb.call args w).1.entered = w.entered ++ if cb.accepts args.length then [args] else [] := by
  unfold call
  split
  · rfl
  · simp

/-- The test of the closure on what the call without arguments raises. -/
theorem fallsBack_of_error {err : PyException} (h : (cb.call [] w).2 = .error err) :
    (cb.callable target w).fallsBack = err.readsMissing := by
  simp only [Callable.fallsBack, callable, h]
  rfl

/-- There is no second call where the first one returns. -/
theorem fallsBack_of_ok (h : (cb.call [] w).2 = .ok ()) :
    (cb.callable target w).fallsBack = false := by
  simp only [Callable.fallsBack, callable, h]
  rfl

/-- The closure calls the callable again if the body raises an exception that reads like that of a
call with an argument missing, and, where no argument does not fit, if the exception of the call
does. -/
theorem fallsBack_callable : (cb.callable target w).fallsBack =
    if cb.accepts 0 then cb.bodyReadsMissing w.state else cb.arityReadsMissing := by
  by_cases h0 : cb.accepts 0 = true
  · rw [if_pos h0]
    have hcall : (cb.call [] w).2 = (cb.body [] w.state).2 := by
      simp [call, h0]
    cases hbody : (cb.body [] w.state).2 with
    | ok u =>
      rw [cb.fallsBack_of_ok target w (hcall.trans hbody)]
      simp [bodyReadsMissing, hbody]
    | error err =>
      rw [cb.fallsBack_of_error target w (hcall.trans hbody)]
      simp [bodyReadsMissing, hbody]
  · rw [if_neg h0]
    refine cb.fallsBack_of_error target w ?_
    simp [call, h0]

variable {cb w} in
/-- The closure where the call without arguments returns. -/
theorem wrapDoneCallback_ok {w₁ : CallState σ τ} (h : cb.call [] w = (w₁, .ok ())) :
    wrapDoneCallback cb target w = (w₁, .ok ()) := by
  simp only [wrapDoneCallback, h]

variable {cb w} in
/-- The closure where the call without arguments raises. -/
theorem wrapDoneCallback_error {w₁ : CallState σ τ} {err : PyException}
    (h : cb.call [] w = (w₁, .error err)) : wrapDoneCallback cb target w =
      if err.readsMissing then cb.call [target] w₁ else (w₁, .error err) := by
  simp only [wrapDoneCallback, h, PyException.readsMissing]
  split
  · next htype => simp [htype]
  · next htype => simp [htype]

/-- The bodies that the closure enters: that of the first call, and that of the second if there is
one. -/
theorem entered_wrapDoneCallback : (wrapDoneCallback cb target w).1.entered = w.entered ++
    ((if cb.accepts 0 then [[]] else []) ++
      if (cb.callable target w).fallsBack && cb.accepts 1 then [[target]] else []) := by
  obtain ⟨⟨w₁, outcome⟩, hcall⟩ : ∃ r, cb.call [] w = r := ⟨_, rfl⟩
  have hfirst : w₁.entered = w.entered ++ if cb.accepts 0 then [[]] else [] := by
    simpa [hcall] using cb.entered_call w []
  cases outcome with
  | ok u =>
    rw [cb.fallsBack_of_ok target w (by rw [hcall]), wrapDoneCallback_ok target hcall]
    simpa using hfirst
  | error err =>
    have hsecond := cb.entered_call w₁ [target]
    rw [cb.fallsBack_of_error target w (by rw [hcall]), wrapDoneCallback_error target hcall]
    cases err.readsMissing with
    | false => simpa using hfirst
    | true => simpa [hfirst] using hsecond

variable {cb target w}

/-- A callable that accepts no argument, or one, is entered once as claimed if and only if exactly
one of the two calls enters its body. -/
theorem enteredOnce_iff_firesOnce (h : cb.accepts 0 = true ∨ cb.accepts 1 = true) :
    cb.EnteredOnce target w ↔ (cb.callable target w).firesOnce = true := by
  have hfires : (cb.callable target w).firesOnce =
      (cb.accepts 0 ^^ ((cb.callable target w).fallsBack && cb.accepts 1)) := rfl
  rw [EnteredOnce, entered_wrapDoneCallback, hfires, List.append_cancel_left_eq]
  cases h0 : cb.accepts 0 with
  | true => cases (cb.callable target w).fallsBack && cb.accepts 1 <;> simp
  | false =>
    have h1 : cb.accepts 1 = true := by simpa [h0] using h
    cases (cb.callable target w).fallsBack <;> simp [h1]

end PyCallable

/-- The body of a callable that accepts no argument, or one, is entered exactly once, with no
argument if none is accepted and otherwise with the task, if and only if the text of the exception
tells a call that did not fit from a body that failed. -/
theorem entered_once_iff (cb : PyCallable σ τ) (target : τ) (w : CallState σ τ)
    (h : cb.accepts 0 = true ∨ cb.accepts 1 = true) :
    cb.EnteredOnce target w ↔
      if cb.accepts 0 then ¬ (cb.accepts 1 = true ∧ cb.bodyReadsMissing w.state = true)
      else cb.arityReadsMissing = true := by
  rw [PyCallable.enteredOnce_iff_firesOnce h, Callable.firesOnce, PyCallable.fallsBack_callable]
  show (cb.accepts 0 ^^ (_ && cb.accepts 1)) = true ↔ _
  cases h0 : cb.accepts 0 with
  | true => cases cb.accepts 1 <;> simp
  | false =>
    have h1 : cb.accepts 1 = true := by simpa [h0] using h
    simp [h1]

/-! ## Functions -/

/-- A text contains each of its parts. -/
theorem contains_append (before pattern after : String) :
    contains (before ++ (pattern ++ after)) pattern = true := by
  refine decide_eq_true ⟨before.toList, after.toList, ?_⟩
  simp only [String.toList_append, List.append_assoc]

/-- The text of the `TypeError` that a Python function raises for a call without arguments, where it
has one parameter and no default for it. -/
def functionMessage (function parameter : String) : String :=
  function ++ "() missing 1 required positional argument: '" ++ parameter ++ "'"

/-- A function that needs the task is entered once, with the task, whatever its body does. -/
theorem function_entered_once (cb : PyCallable σ τ) (target : τ) (w : CallState σ τ)
    (function parameter : String) (h0 : cb.accepts 0 = false) (h1 : cb.accepts 1 = true)
    (htext : cb.arityMessage 0 = functionMessage function parameter) :
    (wrapDoneCallback cb target w).1.entered = w.entered ++ [[target]] := by
  have hreads : cb.arityReadsMissing = true := by
    -- the text, cut at the two parts that the closure looks for
    have hcut : PyException.text ⟨"TypeError", true, cb.arityMessage 0⟩ =
        "TypeError: " ++ function ++ "() " ++ ("missing" ++ (" 1 " ++
          ("required positional argument" ++ (": '" ++ parameter ++ "'")))) := by
      have hmiddle : "() missing 1 required positional argument: '" =
          "() " ++ ("missing" ++ (" 1 " ++ ("required positional argument" ++ ": '"))) := rfl
      have htype : "TypeError: " = "TypeError" ++ ": " := rfl
      rw [PyException.text, htext, functionMessage, hmiddle, htype]
      simp only [String.append_assoc]
    have hmissing := contains_append ("TypeError: " ++ function ++ "() ") "missing" (" 1 " ++
      ("required positional argument" ++ (": '" ++ parameter ++ "'")))
    have hrequired := contains_append ("TypeError: " ++ function ++ "() " ++ "missing" ++ " 1 ")
      "required positional argument" (": '" ++ parameter ++ "'")
    simp only [String.append_assoc] at hcut hmissing hrequired
    rw [← hcut] at hmissing hrequired
    simp [PyCallable.arityReadsMissing, PyException.readsMissing, hmissing, hrequired]
  have honce : cb.EnteredOnce target w := by
    rw [entered_once_iff cb target w (.inr h1)]
    simp [h0, hreads]
  simpa [PyCallable.EnteredOnce, h0] using honce

end

/-! ## Callables that are entered once, never and twice -/

/-- `lambda fut: received.append(fut.result())`. -/
def appendResult : PyCallable (List ℕ) ℕ where
  accepts n := n == 1
  arityMessage n := if n = 0 then functionMessage "<lambda>" "fut"
    else "<lambda>() takes 1 positional argument but " ++ toString n ++ " were given"
  body args received := (received ++ args, .ok ())

/-- Its body is entered once. -/
theorem entered_once_iff_lambda : appendResult.EnteredOnce 7 ⟨[], []⟩ ∧
    (wrapDoneCallback appendResult 7 ⟨[], []⟩).1 = ⟨[7], [[7]]⟩ :=
  ⟨(entered_once_iff appendResult 7 ⟨[], []⟩ (.inr rfl)).2 (by decide), by decide⟩

/-- `received.append`, a method of a builtin type. -/
def listAppend : PyCallable (List ℕ) ℕ where
  accepts n := n == 1
  arityMessage n := "list.append() takes exactly one argument (" ++ toString n ++ " given)"
  body args received := (received ++ args, .ok ())

/-- A function whose parameter has a default, and that calls `helper()`, where an argument is
missing, if it gets none itself. -/
def callsHelper : PyCallable (List ℕ) ℕ where
  accepts n := n ≤ 1
  arityMessage n :=
    "cb() takes from 0 to 1 positional arguments but " ++ toString n ++ " were given"
  body args received :=
    if args = [] then (received, .error ⟨"TypeError", true, functionMessage "helper" "x"⟩)
    else (received ++ args, .ok ())

/-- The method accepts one argument, and its body is never entered; the function accepts none, and
its body is entered twice. -/
theorem append_never_entered :
    (listAppend.accepts 1 = true ∧ (wrapDoneCallback listAppend 7 ⟨[], []⟩).1.entered = [] ∧
      ¬ listAppend.EnteredOnce 7 ⟨[], []⟩) ∧
    (callsHelper.accepts 0 = true ∧
      (wrapDoneCallback callsHelper 7 ⟨[], []⟩).1.entered = [[], [7]] ∧
      ¬ callsHelper.EnteredOnce 7 ⟨[], []⟩) := by
  have hnever : (wrapDoneCallback listAppend 7 ⟨[], []⟩).1.entered = [] := by decide
  have htwice : (wrapDoneCallback callsHelper 7 ⟨[], []⟩).1.entered = [[], [7]] := by decide
  refine ⟨⟨rfl, hnever, fun h => ?_⟩, ⟨rfl, htwice, fun h => ?_⟩⟩
  · rw [PyCallable.EnteredOnce, hnever] at h
    cases h
  · rw [PyCallable.EnteredOnce, htwice] at h
    cases h

end Hypertile
