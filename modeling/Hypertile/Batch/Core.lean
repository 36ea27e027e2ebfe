import Hypertile.Batch.Chunks
import Hypertile.Completion.Core

/-!
# The task types of the Python bindings

`NativeTask` and `CallableTask` have one future, which stores its result and sets `done`. A
`BatchNativeTask` or `BatchCallableTask` has one future for each chunk: it processes its items in
order, stores their results, or the message of the panic that ended it, and subtracts its length
from `remaining`; the task is done at zero. What differs between the native and the callable type of
each kind is what a future stores and how `result()` reads it.

What processing an item ends with is given: a value, or the message of a panic, where a value of a
callable is what the call returned or raised.
-/

namespace Hypertile

/-! ## One future -/

/-- `NativeTaskInner` and `CallableTaskInner`, without the callbacks. -/
structure SingleInner (ρ : Type) where
  result : Option ρ
  done : Bool

/-- Where the future stands: at work, about to store, about to set `done`. -/
inductive SingleWork (ρ : Type) where
  | running
  | storing (res : ρ)
  | publishing
  deriving DecidableEq

section
variable {ρ V E : Type}

/-- A step of the future, which comes to store `out`. -/
def singleWork (out : ρ) (d : SingleInner ρ) :
    SingleWork ρ → SingleInner ρ × (SingleWork ρ ⊕ Bool)
  | .running => (d, .inl (.storing out))
  | .storing res => ({ d with result := some res }, .inl .publishing)
  | .publishing => ({ d with done := true }, .inr true)

/-- `result()`, where `read` is what is done with a stored result. -/
def singleResult (read : ρ → Except (PyErr E) V) (d : SingleInner ρ) : Except (PyErr E) V :=
  match d.result with
  | some res => read res
  | none => .error (.runtimeError "task not completed")

/-- A task with one future. -/
def singleTask (out : ρ) (read : ρ → Except (PyErr E) V) : TaskType V E where
  futures := 1
  Inner := SingleInner ρ
  Work := SingleWork ρ
  new := ⟨none, false⟩
  start _ := .running
  work _ w d := some (singleWork out d w)
  done := SingleInner.done
  result := singleResult read
  Outcome r := r = read out

end

/-- The bytes that a native pipeline puts out. -/
abbrev Bytes := List UInt8

/-- What a call of a Python callable ends with: a value or an exception, or the message of a panic.
-/
abbrev CallRes (V E : Type) := Except String (Except E V)

section
variable {V E : Type}

/-- What `NativeTask.result` makes of a stored result. -/
def readNative : Except String Bytes → Except (PyErr E) Bytes
  | .ok bytes => .ok bytes
  | .error msg => .error (.panicInTask msg)

/-- A `NativeTask`, whose pipeline ends with `output`. -/
def nativeTask (output : Except String Bytes) : TaskType Bytes E := singleTask output readNative

/-- `stored_res` of `spawn_callable`. -/
def storedRes : CallRes V E → Except (PyErr E) V
  | .ok (.ok val) => .ok val
  | .ok (.error err) => .error (.raised err)
  | .error msg => .error (.panicInTask msg)

/-- A `CallableTask`, whose call ends with `call`. -/
def callableTask (call : CallRes V E) : TaskType V E := singleTask (storedRes call) id

end

/-! ## One future for each chunk -/

/-- `BatchNativeInner` and `BatchCallableInner`, without the callbacks, and with a record of the
items processed. -/
structure BatchInner (ρ : Type) where
  results : List (Option ρ)
  remaining : ℕ
  panicError : Option String
  processed : List ℕ

/-- Where the future of a chunk stands: about to process item `i`, with the results so far; about to
store; about to subtract its length from `remaining`. -/
inductive ChunkWork (ρ : Type) where
  | item (i : ℕ) (chunkRes : List ρ)
  | storing (chunkRes : Except String (List ρ))
  | publishing
  deriving DecidableEq

/-- A batch: what processing each item ends with, and the chunks the items are cut into. The number
of items is a machine word. -/
structure Batch (ρ : Type) where
  items : List (Except String ρ)
  chunks : RangePartition items.length
  total_lt : items.length < wordSize

section
variable {ρ V E : Type}

/-- What a batch is spawned for: the items, with what processing each ends with, and the number of
active workers. The items fit in memory, and `num_workers * 4` is a word. -/
structure BatchInput (ρ : Type) where
  items : List (Except String ρ)
  active : ℕ
  total_lt : items.length < 2 ^ 63
  active_lt : active * 4 < wordSize

/-- The batch that is spawned. -/
def BatchInput.batch (x : BatchInput ρ) : Batch ρ where
  items := x.items
  chunks := BatchSize.spawned ⟨x.items.length, x.active, x.total_lt, x.active_lt⟩
  total_lt := x.total_lt.trans (by decide)

/-- Stores the results of a chunk, from index `i` on. -/
def storeChunk (i : ℕ) : List ρ → List (Option ρ) → List (Option ρ)
  | [], results => results
  | res :: rest, results => storeChunk (i + 1) rest (results.set i (some res))

/-- A step of the future of chunk `p`. -/
def chunkWork (b : Batch ρ) (p : Fin b.chunks.ranges.length) (d : BatchInner ρ) :
    ChunkWork ρ → Option (BatchInner ρ × (ChunkWork ρ ⊕ Bool))
  | .item i chunkRes =>
    if i < b.chunks.stop p then
      match b.items[i]? with
      | some (.ok res) =>
        some ({ d with processed := i :: d.processed }, .inl (.item (i + 1) (chunkRes ++ [res])))
      | some (.error msg) =>
        some ({ d with processed := i :: d.processed }, .inl (.storing (.error msg)))
      | none => none
    else some (d, .inl (.storing (.ok chunkRes)))
  | .storing (.ok chunkRes) =>
    some ({ d with results := storeChunk (b.chunks.start p) chunkRes d.results }, .inl .publishing)
  | .storing (.error msg) => some ({ d with panicError := some msg }, .inl .publishing)
  | .publishing =>
    let count := b.chunks.stop p - b.chunks.start p
    some ({ d with remaining := wordSub d.remaining count }, .inr (d.remaining == count))

/-- `result()`, where `pending` is the message before completion and `collect` makes the list. -/
def batchResult (pending : String) (collect : List (Option ρ) → Except (PyErr E) V)
    (d : BatchInner ρ) : Except (PyErr E) V :=
  if d.remaining ≠ 0 then .error (.runtimeError pending)
  else
    match d.panicError with
    | some msg => .error (.panicInTask msg)
    | none => collect d.results

/-- The outcomes of a batch: what `collect` makes of the results of all items in order, or the error
of an item that panicked. -/
def BatchOutcome (b : Batch ρ) (collect : List (Option ρ) → Except (PyErr E) V)
    (r : Except (PyErr E) V) : Prop :=
  (∃ values : List ρ, b.items = values.map .ok ∧ r = collect (values.map some)) ∨
    ∃ msg, .error msg ∈ b.items ∧ r = .error (.panicInTask msg)

/-- A task with one future for each chunk. -/
def batchTask (b : Batch ρ) (pending : String)
    (collect : List (Option ρ) → Except (PyErr E) V) : TaskType V E where
  futures := b.chunks.ranges.length
  Inner := BatchInner ρ
  Work := ChunkWork ρ
  new := ⟨List.replicate b.items.length none, b.items.length, none, []⟩
  start p := .item (b.chunks.start p) []
  work p w d := chunkWork b p d w
  done d := d.remaining == 0
  result := batchResult pending collect
  Outcome := BatchOutcome b collect

/-- The list that `BatchNativeTask.result` makes; `none` is the `None` put for a missing result. -/
def nativeList (results : List (Option Bytes)) : Except (PyErr E) (List (Option Bytes)) :=
  .ok results

/-- A `BatchNativeTask`. -/
def batchNativeTask (b : Batch Bytes) : TaskType (List (Option Bytes)) E :=
  batchTask b "batch task not completed" nativeList

/-- The list that `BatchCallableTask.result` makes, or the first exception; `none` is the `None` put
for a missing result. -/
def callableList : List (Option (Except E V)) → Except (PyErr E) (List (Option V))
  | [] => .ok []
  | some (.ok val) :: rest => (callableList rest).map (some val :: ·)
  | some (.error err) :: _ => .error (.raised err)
  | none :: rest => (callableList rest).map (none :: ·)

/-- A `BatchCallableTask`. -/
def batchCallableTask (b : Batch (Except E V)) : TaskType (List (Option V)) E :=
  batchTask b "batch callable task not completed" callableList

end

end Hypertile
