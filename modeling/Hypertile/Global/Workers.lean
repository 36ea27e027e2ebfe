import Mathlib.Algebra.Group.Nat.Defs
import Mathlib.Data.List.Basic
import Mathlib.Data.Nat.Basic

/-!
# The size of the shared pool

The model of the sizing policy in `runtime.rs`: the number of workers that is asked for, the
environment variable `HYPERTILE_WORKERS`, and the default for the machine. A size is a `usize`, so a
value of the variable that does not fit in one is invalid. Whatever the variable says, a pool that
is sized automatically has a worker (`resolveWorkerCount_pos`).
-/

namespace Hypertile

/-- `BLOCKING_HEADROOM`. -/
def blockingHeadroom : ℕ := 4

/-- `DEFAULT_WORKERS_CAP`. -/
def defaultWorkersCap : ℕ := 32

/-- `usize::MAX`. -/
def usizeMax : ℕ := 2 ^ 64 - 1

/-- `usize::saturating_add`. -/
def saturatingAdd (m n : ℕ) : ℕ := min (m + n) usizeMax

/-- `worker_count_for_cores`. -/
def workerCountForCores (cores : ℕ) : ℕ :=
  max cores (min (saturatingAdd cores blockingHeadroom) defaultWorkersCap)

/-- `default_worker_count`; `parallelism` is what `available_parallelism` gives, if it succeeds. -/
def defaultWorkerCount (parallelism : Option ℕ) : ℕ :=
  workerCountForCores (max (parallelism.getD 4) 1)

/-- `char::is_whitespace`. -/
def isWhitespace (c : Char) : Bool :=
  (9 ≤ c.toNat && c.toNat ≤ 13) || c.toNat == 0x20 || c.toNat == 0x85 || c.toNat == 0xA0 ||
    c.toNat == 0x1680 || (0x2000 ≤ c.toNat && c.toNat ≤ 0x200A) || c.toNat == 0x2028 ||
    c.toNat == 0x2029 || c.toNat == 0x202F || c.toNat == 0x205F || c.toNat == 0x3000

/-- `str::trim`. -/
def trim (raw : List Char) : List Char :=
  ((raw.dropWhile isWhitespace).reverse.dropWhile isWhitespace).reverse

/-- The next digit of a number, unless it is none or the number does not fit in a `usize`. -/
def pushDigit (n : ℕ) (c : Char) : Option ℕ :=
  if c.isDigit then
    let n' := n * 10 + (c.toNat - '0'.toNat)
    if n' ≤ usizeMax then some n' else none
  else none

/-- `str::parse::<usize>`: digits, with a plus sign before them or none. -/
def parseUsize : List Char → Option ℕ
  | [] => none
  | ['+'] => none
  | '+' :: digits => digits.foldlM pushDigit 0
  | digits => digits.foldlM pushDigit 0

/-- `parse_worker_count`. -/
def parseWorkerCount (raw : List Char) : Except Unit (Option ℕ) :=
  match parseUsize (trim raw) with
  | some 0 => .ok none
  | some count => .ok (some count)
  | none => .error ()

/-- `workers_from_env`; `env` is the value of `HYPERTILE_WORKERS`, if it is set. An invalid value is
reported and ignored. -/
def workersFromEnv (env : Option (List Char)) : Option ℕ :=
  env.bind fun raw =>
    match parseWorkerCount raw with
    | .ok explicit => explicit
    | .error () => none

/-- `resolve_worker_count`. -/
def resolveWorkerCount (env : Option (List Char)) (parallelism : Option ℕ) (requested : ℕ) : ℕ :=
  if requested = 0 then (workersFromEnv env).getD (defaultWorkerCount parallelism) else requested

example : workersFromEnv (some " +12\n".toList) = some 12 := by decide

example : workersFromEnv (some "18446744073709551616".toList) = none := by decide

/-! ## Every size is usable -/

/-- The default has a worker for each core. -/
theorem le_defaultWorkerCount (parallelism : Option ℕ) :
    max (parallelism.getD 4) 1 ≤ defaultWorkerCount parallelism := by
  rw [defaultWorkerCount, workerCountForCores]
  exact Nat.le_max_left ..

/-- A count that is taken from the variable is not zero. -/
theorem parseWorkerCount_pos {raw : List Char} {count : ℕ}
    (h : parseWorkerCount raw = .ok (some count)) : 0 < count := by
  unfold parseWorkerCount at h
  split at h
  · cases h
  · next hzero _ =>
    cases h
    exact Nat.pos_of_ne_zero hzero
  · cases h

/-- A pool is made with at least one worker. -/
theorem resolveWorkerCount_pos (env : Option (List Char)) (parallelism : Option ℕ) (requested : ℕ) :
    0 < resolveWorkerCount env parallelism requested := by
  unfold resolveWorkerCount
  split
  · cases hcount : workersFromEnv env with
    | none =>
      have hcores : 1 ≤ max (parallelism.getD 4) 1 := Nat.le_max_right ..
      exact Nat.le_trans hcores (le_defaultWorkerCount parallelism)
    | some count =>
      obtain ⟨raw, -, hraw⟩ := Option.bind_eq_some_iff.1 hcount
      cases hparse : parseWorkerCount raw with
      | error =>
        rw [hparse] at hraw
        cases hraw
      | ok explicit =>
        rw [hparse] at hraw
        cases hraw
        exact parseWorkerCount_pos hparse
  · next hne => exact Nat.pos_of_ne_zero hne

/-- A count that is asked for is taken as it is. -/
theorem resolveWorkerCount_of_pos (env : Option (List Char)) (parallelism : Option ℕ)
    {requested : ℕ}
    (h : 0 < requested) : resolveWorkerCount env parallelism requested = requested :=
  if_neg (Nat.pos_iff_ne_zero.1 h)

end Hypertile
