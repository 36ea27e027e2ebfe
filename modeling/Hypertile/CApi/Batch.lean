import Hypertile.Batch.Chunks
import Hypertile.Machine.Threads

/-!
# The batch call of the C interface

The model of `hypertile_batch_spawn`: the caller spawns one task for each chunk and then parks until
the counter of chunks is zero. A task calls the work function on the items of its chunk in order,
writes each result to `out_results`, and subtracts one from the counter at its end; the one that
brings it to zero unparks the caller. The tasks run on other threads than the caller, and can start
as soon as they are spawned.
-/

namespace Hypertile

/-- The status codes of the C interface. -/
inductive HypertileStatus where
  | ok
  | pending
  | errInvalidArg
  | errPanic
  | errNotInitialized
  | errWorkerNotRegistered
  deriving DecidableEq

/-- A pointer; `NULL` is `0`. -/
abbrev Ptr := ℕ

/-- A batch call: for each item the pointer that the work function returns, or `none` where it
panics; the chunks the items are cut into; and what `out_results` holds before. The number of items
is a machine word. -/
structure CapiBatch where
  items : List (Option Ptr)
  chunks : RangePartition items.length
  out : List Ptr
  out_length : out.length = items.length
  total_lt : items.length < wordSize

/-- What the caller and the tasks share, with a record of the items that the work function has been
called on. -/
structure CapiShared where
  outResults : List Ptr
  remaining : ℕ
  hadPanic : Bool
  /-- The parker of the caller has an unpark token. -/
  token : Bool
  /-- How many tasks have been spawned. -/
  spawned : ℕ
  called : List ℕ

/-- Where a task or the caller stands. -/
inductive CapiPc where
  /-- A task, about to call the work function on item `i`, or at the end of its loop. -/
  | item (i : ℕ)
  /-- The work function has panicked on item `i`. -/
  | panicked (i : ℕ)
  | write (i : ℕ) (res : Ptr)
  | subtract
  | unpark
  | finished
  /-- The caller, spawning the tasks. -/
  | spawning
  /-- About to look at the counter, about to park, about to look for a panic. -/
  | check
  | park
  | status
  | returned (res : HypertileStatus)
  deriving DecidableEq

/-- A step of the task of chunk `p`. -/
def capiTaskStep (b : CapiBatch) (p : Fin b.chunks.ranges.length) (s : CapiShared) :
    CapiPc → Option (CapiShared × CapiPc)
  | .item i =>
    if i < b.chunks.stop p then
      match b.items[i]? with
      | some (some res) => some ({ s with called := i :: s.called }, .write i res)
      | some none => some ({ s with called := i :: s.called }, .panicked i)
      | none => none
    else some (s, .subtract)
  | .panicked i => some ({ s with hadPanic := true }, .write i 0)
  | .write i res => some ({ s with outResults := s.outResults.set i res }, .item (i + 1))
  | .subtract =>
    some ({ s with remaining := wordSub s.remaining 1 },
      if s.remaining = 1 then .unpark else .finished)
  | .unpark => some ({ s with token := true }, .finished)
  | _ => none

/-- A step of the caller. -/
def capiCallerStep (b : CapiBatch) (s : CapiShared) : CapiPc → Option (CapiShared × CapiPc)
  | .spawning =>
    if s.spawned < b.chunks.ranges.length then
      some ({ s with spawned := s.spawned + 1 }, .spawning)
    else some (s, .check)
  | .check => some (s, if 0 < s.remaining then .park else .status)
  | .park => if s.token then some ({ s with token := false }, .check) else none
  | .status => some (s, .returned (if s.hadPanic then .errPanic else .ok))
  | _ => none

/-- A step of a task that has been spawned, or of the caller. -/
def capiStep (b : CapiBatch) (t : Fin b.chunks.ranges.length ⊕ Unit) (s : CapiShared) (m : CapiPc)
    (_ : Unit) : Option (CapiShared × CapiPc) :=
  match t with
  | .inl p => if p.1 < s.spawned then capiTaskStep b p s m else none
  | .inr _ => capiCallerStep b s m

/-- The call has made its counter, and spawned nothing yet. -/
def capiStart (b : CapiBatch) :
    Machine.Config CapiShared CapiPc (Fin b.chunks.ranges.length ⊕ Unit) where
  shared := ⟨b.out, b.chunks.ranges.length, false, false, 0, []⟩
  loc := Sum.elim (fun p => .item (b.chunks.start p)) fun _ => .spawning

/-- A batch call and its tasks, interleaved. -/
def capiMachine (b : CapiBatch) :
    Machine (Machine.Config CapiShared CapiPc (Fin b.chunks.ranges.length ⊕ Unit))
      ((Fin b.chunks.ranges.length ⊕ Unit) × Unit) :=
  .threads (capiStep b) (capiStart b)

/-- What a batch call is given: the items, the number of active workers, and `out_results`. There is
an item, the arrays fit in memory, and `num_workers * 4` is a word. -/
structure CapiInput where
  items : List (Option Ptr)
  active : ℕ
  out : List Ptr
  out_length : out.length = items.length
  items_pos : 0 < items.length
  items_fit : 8 * items.length < 2 ^ 63
  active_lt : active * 4 < wordSize

/-- Its size. -/
def CapiInput.size (x : CapiInput) : BatchSize where
  total := x.items.length
  active := x.active
  total_lt := by have := x.items_fit; omega
  active_lt := x.active_lt

/-- The batch call. -/
def CapiInput.batch (x : CapiInput) : CapiBatch where
  items := x.items
  chunks := x.size.capi x.items_pos
  out := x.out
  out_length := x.out_length
  total_lt := x.size.total_lt.trans (by decide)

end Hypertile
