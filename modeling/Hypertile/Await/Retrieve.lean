import Hypertile.Completion.ExactlyOnce

/-!
# Retrieving a result

The three ways to the outcome of a task of the Python bindings: `result()`; an `await` under a
running asyncio loop, where the completion callback of `bridge_task_await` resolves a future; and an
`await` without a loop, where the task is its own iterator and `__next__` raises `StopIteration`.

`new_err` instantiates `StopIteration` from the value, which unpacks a tuple and takes a
`StopIteration` for the exception itself, and an error that is a `StopIteration` ends the `await`
with its value. So the ways agree on a task exactly if it stores no such value as the value of a
single call, and no such error (`retrieve_agree_iff`).
-/

namespace Hypertile

variable {V E : Type}

/-! ## Values -/

/-- A Python object, as far as the instantiation of an exception looks at it. -/
inductive Shape (V : Type) where
  | none
  | tuple (items : List V)
  /-- An instance of `StopIteration`, with its value. -/
  | stopIteration (value : V)
  | other

/-- The objects `V` and the exceptions `E` of an interpreter. -/
structure Interpreter (V E : Type) where
  shape : V → Shape V
  none : V
  /-- `None` is the only object of its type. -/
  shape_none : ∀ v, shape v = .none ↔ v = none
  /-- The value of an exception that is a `StopIteration`. -/
  stopValue : E → Option V
  /-- What a future stores for a `StopIteration` given to `set_exception`, if it does not refuse. -/
  setStopIteration : E → Option E

/-- A Python value: an object, or one that `result()` builds. -/
inductive PyValue (V : Type) where
  | object (v : V)
  | bytes (data : Bytes)
  | bytesList (items : List (Option Bytes))
  | list (items : List (Option V))
  deriving DecidableEq

/-- What an `await` or a call of `result()` ends with. -/
abbrev Retrieved (V E : Type) := Except (PyErr E) (PyValue V)

/-- The value that `result()` returns, as a Python value. -/
def TaskKind.toPy : (k : TaskKind V E) → k.Value → PyValue V
  | .native _, data => .bytes data
  | .callable _, v => .object v
  | .batchNative _, items => .bytesList items
  | .batchCallable _, items => .list items

namespace Interpreter

variable (py : Interpreter V E)

/-- The `value` of the exception that `PyStopIteration::new_err` makes of a value. -/
def newErr : PyValue V → PyValue V
  | .object v =>
    match py.shape v with
    | .none => .object py.none
    | .tuple items => .object (items.head?.getD py.none)
    | .stopIteration value => .object value
    | .other => .object v
  | val => val

end Interpreter

/-! ## The three ways -/

/-- What a call of `__next__` does. -/
inductive Next (V E : Type) where
  /-- It returns `None`, which suspends the `await`. -/
  | yielded
  /-- It raises a new `StopIteration` with this value. -/
  | stop (value : PyValue V)
  | raised (err : PyErr E)
  deriving DecidableEq

section
variable (py : Interpreter V E) (k : TaskKind V E) (d : k.type.Inner)

/-- `result()`. -/
def retrieve : Retrieved V E := (k.type.result d).map k.toPy

/-- `__next__`. -/
def taskNext : Next V E :=
  if k.type.done d then
    match k.type.result d with
    | .ok val => .stop (py.newErr (k.toPy val))
    | .error err => .raised err
  else .yielded

/-- How an `await` ends when the iterator raises an error: with its value if it is a
`StopIteration`. -/
def raiseInAwait : PyErr E → Retrieved V E
  | .raised err =>
    match py.stopValue err with
    | some value => .ok (.object value)
    | none => .error (.raised err)
  | err => .error err

/-- An `await` without a loop. -/
def awaitIterator : Option (Retrieved V E) :=
  match taskNext py k d with
  | .yielded => none
  | .stop value => some (.ok value)
  | .raised err => some (raiseInAwait py err)

/-- What a future holds after `set_exception`, if it is resolved at all. -/
def setException : PyErr E → Option (Retrieved V E)
  | .raised err =>
    match py.stopValue err with
    | some _ => (py.setStopIteration err).map fun stored => .error (.raised stored)
    | none => some (.error (.raised err))
  | err => some (.error err)

/-- An `await` under a running loop, of a future that the callback of `bridge_task_await` resolves
on completion. -/
def awaitBridged : Option (Retrieved V E) :=
  match k.type.result d with
  | .ok val => some (.ok (k.toPy val))
  | .error err => setException py err

/-- The three ways give one outcome. -/
def RetrieveAgree : Prop :=
  awaitIterator py k d = some (retrieve k d) ∧ awaitBridged py k d = some (retrieve k d)

end

/-! ## Agreement -/

/-- An object that `new_err` does not take apart: a tuple or a `StopIteration` is one only if it is
its own first item, or its own value. -/
def Interpreter.Whole (py : Interpreter V E) (v : V) : Prop :=
  match py.shape v with
  | .tuple items => items.head? = some v
  | .stopIteration value => value = v
  | .none | .other => True

/-- The error that `BatchCallableTask.result` finds first. -/
def firstError (results : List (Option (Except E V))) : Option E :=
  results.findSome? fun
    | some (.error err) => some err
    | _ => none

/-- What a task may store for the ways to agree: no value of a single call that is taken apart, and
no `StopIteration` as the error that is reported. -/
def StoredPlainly (py : Interpreter V E) : (k : TaskKind V E) → k.type.Inner → Prop
  | .native _, _ | .batchNative _, _ => True
  | .callable _, (d : SingleInner (Except (PyErr E) V)) =>
    (∀ v, d.result = some (.ok v) → py.Whole v) ∧
      ∀ err, d.result = some (.error (.raised err)) → py.stopValue err = none
  | .batchCallable _, (d : BatchInner (Except E V)) =>
    d.panicError = none → ∀ err, firstError d.results = some err → py.stopValue err = none

section
variable {py : Interpreter V E}

/-- `new_err` keeps exactly the objects that it does not take apart. -/
theorem newErr_object_iff (v : V) : py.newErr (.object v) = .object v ↔ py.Whole v := by
  cases hv : py.shape v with
  | none =>
    have hnone : v = py.none := (py.shape_none v).1 hv
    rw [Interpreter.newErr, Interpreter.Whole, hv]
    simp [hnone]
  | tuple items =>
    cases items with
    | nil =>
      have hne : py.none ≠ v := by
        rintro rfl
        rw [(py.shape_none py.none).2 rfl] at hv
        cases hv
      simp [Interpreter.newErr, Interpreter.Whole, hv, hne]
    | cons item items => simp [Interpreter.newErr, Interpreter.Whole, hv]
  | stopIteration value => simp [Interpreter.newErr, Interpreter.Whole, hv]
  | other => simp [Interpreter.newErr, Interpreter.Whole, hv]

/-- The iterator passes an error on exactly if it is no `StopIteration`. -/
theorem raiseInAwait_iff (err : PyErr E) :
    raiseInAwait py err = .error err ↔ ∀ e, err = .raised e → py.stopValue e = none := by
  cases err with
  | raised e => cases he : py.stopValue e <;> simp [raiseInAwait, he]
  | panicInTask msg | runtimeError msg => simp [raiseInAwait]

/-- A future passes an error on if it is no `StopIteration`. -/
theorem setException_eq {err : PyErr E} (h : ∀ e, err = .raised e → py.stopValue e = none) :
    setException py err = some (.error err) := by
  cases err with
  | raised e => rw [setException, h e rfl]
  | panicInTask msg | runtimeError msg => rfl

/-- The ways agree on a task that is done exactly if its value is not taken apart, or its error is
no `StopIteration`. -/
theorem retrieveAgree_iff (k : TaskKind V E) {d : k.type.Inner} (hdone : k.type.done d = true) :
    RetrieveAgree py k d ↔ match k.type.result d with
      | .ok val => py.newErr (k.toPy val) = k.toPy val
      | .error err => ∀ e, err = .raised e → py.stopValue e = none := by
  rw [RetrieveAgree, awaitIterator, taskNext, if_pos hdone, awaitBridged, retrieve]
  cases hres : k.type.result d with
  | ok val => simp [Except.map]
  | error err =>
    simp only [Except.map, Option.some.injEq, raiseInAwait_iff]
    exact ⟨fun h => h.1, fun h => ⟨h, setException_eq h⟩⟩

/-- The list of results has an error exactly if there is a first one. -/
theorem callableList_error_iff (results : List (Option (Except E V))) (e : E) :
    callableList results = .error (.raised e) ↔ firstError results = some e := by
  induction results with
  | nil => simp [callableList, firstError]
  | cons res results ih =>
    rcases res with - | err | val
    · rw [callableList]
      cases hrest : callableList results <;> simp_all [firstError, Except.map]
    · simp [callableList, firstError]
    · rw [callableList]
      cases hrest : callableList results <;> simp_all [firstError, Except.map]

end

/-- The three ways to the outcome of a task that is done agree if and only if a `CallableTask`
stores no tuple and no `StopIteration` as its value, but for one that is its own first item or
value, and no task reports a `StopIteration` as its error. -/
theorem retrieve_agree_iff (py : Interpreter V E) (k : TaskKind V E) (d : k.type.Inner)
    (hdone : k.type.done d = true) : RetrieveAgree py k d ↔ StoredPlainly py k d := by
  rw [retrieveAgree_iff k hdone]
  cases k with
  | native output =>
    change SingleInner (Except String Bytes) at d
    obtain ⟨res, done⟩ := d
    rcases res with - | msg | data <;> simp [StoredPlainly, TaskKind.type, nativeTask, singleTask,
      singleResult, readNative, TaskKind.toPy, Interpreter.newErr]
  | callable call =>
    change SingleInner (Except (PyErr E) V) at d
    obtain ⟨res, done⟩ := d
    rcases res with - | err | v
    · simp [StoredPlainly, TaskKind.type, callableTask, singleTask, singleResult]
    · change (∀ e, err = .raised e → _) ↔ _
      simp [StoredPlainly]
    · change py.newErr (.object v) = .object v ↔ _
      simp [StoredPlainly, newErr_object_iff]
  | batchNative x =>
    change BatchInner Bytes at d
    have hzero : d.remaining = 0 := beq_iff_eq.1 hdone
    cases hpanic : d.panicError with
    | some msg =>
      have hres : (TaskKind.batchNative (V := V) (E := E) x).type.result d =
          .error (.panicInTask msg) :=
        batchResult_panic _ _ hzero hpanic
      simp [hres, StoredPlainly]
    | none =>
      have hres : (TaskKind.batchNative (V := V) (E := E) x).type.result d = .ok d.results :=
        batchResult_done _ _ hzero hpanic
      simp [hres, StoredPlainly, TaskKind.toPy, Interpreter.newErr]
  | batchCallable x =>
    change BatchInner (Except E V) at d
    have hzero : d.remaining = 0 := beq_iff_eq.1 hdone
    cases hpanic : d.panicError with
    | some msg =>
      have hres : (TaskKind.batchCallable x).type.result d = .error (.panicInTask msg) :=
        batchResult_panic _ _ hzero hpanic
      simp [hres, StoredPlainly, hpanic]
    | none =>
      have hres : (TaskKind.batchCallable x).type.result d = callableList d.results :=
        batchResult_done _ _ hzero hpanic
      rw [hres, StoredPlainly]
      cases hlist : callableList d.results with
      | ok items =>
        simp [TaskKind.toPy, Interpreter.newErr, ← callableList_error_iff, hlist]
      | error err => simp [hpanic, ← callableList_error_iff, hlist]

/-- An interpreter in which `1` is the tuple of `2` and `3`. -/
def pairInterpreter : Interpreter ℕ Unit where
  shape
    | 0 => .none
    | 1 => .tuple [2, 3]
    | _ => .other
  none := 0
  shape_none
    | 0 => ⟨fun _ => rfl, fun _ => rfl⟩
    | 1 => ⟨nofun, nofun⟩
    | _ + 2 => ⟨nofun, nofun⟩
  stopValue _ := none
  setStopIteration _ := none

/-- The call that returned `7` is read alike in all three ways. -/
theorem retrieve_agree_iff_seven :
    RetrieveAgree pairInterpreter sevenTask ⟨some (.ok (7 : ℕ)), true⟩ :=
  (retrieve_agree_iff pairInterpreter sevenTask ⟨some (.ok (7 : ℕ)), true⟩ rfl).2
    ⟨fun v hv => by cases hv; trivial, nofun⟩

/-- A `CallableTask` whose call returns the tuple. -/
def pairTask : TaskKind ℕ Unit := .callable (.ok (.ok 1))

/-- Once its future has completed it, `result()` and a future give the tuple, and an `await` without
a loop gives its first item. -/
theorem tuple_retrieved_apart :
    ∃ c, (completionMachine pairTask.type (fun _ => plainParameter) Unit).run
        (newTask pairTask.type Unit Unit)
        (List.replicate 3 (.inl ⟨0, Nat.one_pos⟩, .go)) = some c ∧
      pairTask.type.done c.shared.inner = true ∧
      retrieve pairTask c.shared.inner = .ok (.object 1) ∧
      awaitBridged pairInterpreter pairTask c.shared.inner = some (.ok (.object 1)) ∧
      awaitIterator pairInterpreter pairTask c.shared.inner = some (.ok (.object 2)) ∧
      ¬ RetrieveAgree pairInterpreter pairTask c.shared.inner :=
  ⟨_, rfl, rfl, rfl, rfl, rfl, fun h => nomatch h.1⟩

end Hypertile
