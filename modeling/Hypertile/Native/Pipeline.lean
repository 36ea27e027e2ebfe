import Hypertile.Native.Words

/-!
# The native pipeline

The model of `run_crypto_pipeline`: a 64-bit state is mixed from the payload byte by byte (`fnv`),
goes through the rounds, and every fourth round writes it to one of the four slots of the output in
turn.

A slot holds the state after the last round that wrote it, and the rounds after the last write do
not show (`pipeline_slots`). As a round loses nothing, two payloads give the same output exactly
when they are mixed to the same state, which payloads that differ in one byte only never are
(`pipeline_collisions`).
-/

namespace Hypertile

open Words

/-! ## The code -/

/-- A step of the loop over the payload. -/
def fnvStep (state : BitVec 64) (b : BitVec 8) : BitVec 64 :=
  (state ^^^ b.setWidth 64) * 0x100000001b3

/-- The state after the loop over the payload. -/
def fnv (data : List (BitVec 8)) : BitVec 64 := data.foldl fnvStep 0xcbf29ce484222325

/-- What the round `r` does to the state. -/
def mixRound (state : BitVec 64) (r : ℕ) : BitVec 64 :=
  (state.rotateLeft 13 ^^^ BitVec.ofNat 64 r * 0x517cc1b727220a95) + 0x9e3779b97f4a7c15

/-- The round `r`, with the output. -/
def pipelineRound (p : BitVec 64 × List (BitVec 8)) (r : ℕ) : BitVec 64 × List (BitVec 8) :=
  let state := mixRound p.1 r
  if r % 4 = 0 then (state, overwrite p.2 (r / 4 % 4 * 8) (leBytes 8 state)) else (state, p.2)

/-- `run_crypto_pipeline`. -/
def runCryptoPipeline (data : List (BitVec 8)) (rounds : ℕ) : List (BitVec 8) :=
  ((List.range rounds).foldl pipelineRound (fnv data, List.replicate 32 0)).2

/-! ## The state -/

/-- The state after so many rounds. -/
def roundsState (data : List (BitVec 8)) (rounds : ℕ) : BitVec 64 :=
  (List.range rounds).foldl mixRound (fnv data)

/-- One more round. -/
theorem roundsState_succ (data : List (BitVec 8)) (n : ℕ) :
    roundsState data (n + 1) = mixRound (roundsState data n) n := by
  simp [roundsState, List.range_succ]

/-- The multiplier of the loop over the payload is odd. -/
theorem isUnit_fnvPrime : IsUnit (0x100000001b3 : BitVec 64) :=
  IsUnit.of_mul_eq_one 0xce965057aff6957b (by decide)

/-- The loop over the payload loses nothing of the state before it. -/
theorem fnvStep_injective (b : BitVec 8) : Function.Injective fun state => fnvStep state b :=
  fun _ _ h => (BitVec.xor_left_inj _).1 (isUnit_fnvPrime.mul_left_injective h)

/-- From one state different bytes lead to different states. -/
theorem fnvStep_byte_injective (state : BitVec 64) : Function.Injective (fnvStep state) := by
  intro a b h
  have hbytes := (BitVec.xor_right_inj _).1 (isUnit_fnvPrime.mul_left_injective h)
  have hback := congrArg (BitVec.setWidth 8) hbytes
  simpa using hback

/-- A round loses nothing. -/
theorem mixRound_injective (r : ℕ) : Function.Injective fun state => mixRound state r :=
  fun _ _ h => rotateLeft_injective 13 ((BitVec.xor_left_inj _).1 (add_left_injective _ h))

/-- Any number of rounds loses nothing. -/
theorem roundsState_inj {data other : List (BitVec 8)} {n : ℕ} :
    roundsState data n = roundsState other n ↔ fnv data = fnv other :=
  (foldl_injective mixRound_injective (List.range n)).eq_iff

/-! ## The output -/

/-- The state in the loop is the one of the rounds alone. -/
theorem pipelineRounds_state (data : List (BitVec 8)) (n : ℕ) :
    ((List.range n).foldl pipelineRound (fnv data, List.replicate 32 0)).1 =
      roundsState data n := by
  induction n with
  | zero => rfl
  | succ n ih =>
    rw [List.range_succ, List.foldl_append, roundsState_succ, ← ih]
    simp only [List.foldl_cons, List.foldl_nil, pipelineRound]
    split <;> rfl

/-- The output after one more round. -/
theorem runCryptoPipeline_succ (data : List (BitVec 8)) (n : ℕ) :
    runCryptoPipeline data (n + 1) =
      if n % 4 = 0 then
        overwrite (runCryptoPipeline data n) (n / 4 % 4 * 8) (leBytes 8 (roundsState data (n + 1)))
      else runCryptoPipeline data n := by
  rw [runCryptoPipeline, List.range_succ, List.foldl_append, roundsState_succ,
    ← pipelineRounds_state data n]
  simp only [List.foldl_cons, List.foldl_nil, pipelineRound]
  split <;> rfl

/-- The output has 32 bytes. -/
@[simp] theorem length_runCryptoPipeline (data : List (BitVec 8)) (n : ℕ) :
    (runCryptoPipeline data n).length = 32 := by
  induction n with
  | zero => rfl
  | succ n ih =>
    rw [runCryptoPipeline_succ]
    split
    · rw [length_overwrite, ih]
      simp only [ih, length_leBytes]
      omega
    · exact ih

/-- The last round before `n` that writes the slot `s`. -/
def lastWrite (s n : ℕ) : ℕ := 16 * ((n - 1 - 4 * s) / 16) + 4 * s

/-- What a slot holds. -/
def slotBytes (data : List (BitVec 8)) (s n : ℕ) : List (BitVec 8) :=
  if n ≤ 4 * s then List.replicate 8 0 else leBytes 8 (roundsState data (lastWrite s n + 1))

/-- A slot holds the state after the last round that wrote it. -/
theorem slice_runCryptoPipeline (data : List (BitVec 8)) (rounds : ℕ) {s : ℕ} (hs : s < 4) :
    slice (runCryptoPipeline data rounds) (8 * s) 8 = slotBytes data s rounds := by
  induction rounds with
  | zero =>
    show slice (List.replicate 32 (0 : BitVec 8)) (8 * s) 8 = List.replicate 8 0
    rw [slice, List.drop_replicate, List.take_replicate]
    congr 1
    omega
  | succ n ih =>
    have hlength := length_runCryptoPipeline data n
    rw [runCryptoPipeline_succ]
    by_cases hwrites : n % 16 = 4 * s
    · -- the round writes this slot
      have hslot : n / 4 % 4 * 8 = 8 * s := by omega
      have hlast : lastWrite s (n + 1) = n := by
        unfold lastWrite
        omega
      rw [if_pos (by omega), hslot, slotBytes, if_neg (by omega), hlast]
      exact slice_overwrite (by omega)
    · have hsame : slotBytes data s (n + 1) = slotBytes data s n := by
        have hlast : 4 * s < n → lastWrite s (n + 1) = lastWrite s n := by
          unfold lastWrite
          omega
        unfold slotBytes
        split
        · rw [if_pos (by omega)]
        · rw [if_neg (by omega), hlast (by omega)]
      rw [hsame, ← ih]
      split
      · -- it writes another one
        refine slice_overwrite_of_disjoint ?_ ?_ <;> simp only [length_leBytes] <;> omega
      · rfl

/-- The rounds up to the next multiple of four do not show. -/
theorem runCryptoPipeline_rounds (data : List (BitVec 8)) (rounds : ℕ) :
    runCryptoPipeline data rounds = runCryptoPipeline data (4 * ((rounds + 3) / 4)) := by
  have hskip : ∀ k, (∀ j < k, (rounds + j) % 4 ≠ 0) →
      runCryptoPipeline data (rounds + k) = runCryptoPipeline data rounds := by
    intro k
    induction k with
    | zero => exact fun _ => rfl
    | succ k ih =>
      intro hk
      rw [← Nat.add_assoc, runCryptoPipeline_succ, if_neg (hk k (Nat.lt_succ_self k))]
      exact ih fun j hj => hk j (by omega)
  have hnext : 4 * ((rounds + 3) / 4) = rounds + (4 * ((rounds + 3) / 4) - rounds) := by omega
  rw [hnext, hskip _ fun j hj => by omega]

/-- The output has 32 bytes; each of its four slots holds the state, in little-endian order, after
the last round that wrote it, or zeros as long as none has; and the number of rounds shows only up
to the next multiple of four. -/
theorem pipeline_slots (data : List (BitVec 8)) (rounds : ℕ) :
    (runCryptoPipeline data rounds).length = 32 ∧
      (∀ s < 4, slice (runCryptoPipeline data rounds) (8 * s) 8 = slotBytes data s rounds) ∧
      runCryptoPipeline data rounds = runCryptoPipeline data (4 * ((rounds + 3) / 4)) :=
  ⟨length_runCryptoPipeline data rounds, fun _ hs => slice_runCryptoPipeline data rounds hs,
    runCryptoPipeline_rounds data rounds⟩

/-! ## What the output tells -/

/-- Two payloads that differ in one byte only are not mixed to the same state. -/
theorem fnv_one_byte (front back : List (BitVec 8)) (a b : BitVec 8) :
    fnv (front ++ a :: back) = fnv (front ++ b :: back) ↔ a = b := by
  rw [fnv, fnv, List.foldl_append, List.foldl_append, List.foldl_cons, List.foldl_cons]
  exact (foldl_injective fnvStep_injective back).eq_iff.trans (fnvStep_byte_injective _).eq_iff

/-- Payloads that are mixed to the same state give the same output, and no others do, unless there
is no round. -/
theorem runCryptoPipeline_inj {data other : List (BitVec 8)} {rounds : ℕ} :
    runCryptoPipeline data rounds = runCryptoPipeline other rounds ↔
      rounds = 0 ∨ fnv data = fnv other := by
  constructor
  · intro h
    by_cases hrounds : rounds = 0
    · exact .inl hrounds
    · right
      have hslot : slotBytes data 0 rounds = slotBytes other 0 rounds := by
        rw [← slice_runCryptoPipeline data rounds (by decide), h,
          slice_runCryptoPipeline other rounds (by decide)]
      rw [slotBytes, slotBytes, if_neg (by omega), if_neg (by omega)] at hslot
      exact roundsState_inj.1 (leBytes_injective (by decide) hslot)
  · rintro (rfl | h)
    · rfl
    · unfold runCryptoPipeline
      rw [h]

/-- What the output tells of the payload is the state that it is mixed to, which any one byte
changes; without a round it tells nothing. -/
theorem pipeline_collisions (rounds : ℕ) :
    (∀ data other, runCryptoPipeline data rounds = runCryptoPipeline other rounds ↔
      rounds = 0 ∨ fnv data = fnv other) ∧
    ∀ front back a b, runCryptoPipeline (front ++ a :: back) rounds =
      runCryptoPipeline (front ++ b :: back) rounds ↔ rounds = 0 ∨ a = b :=
  ⟨fun _ _ => runCryptoPipeline_inj, fun front back a b =>
    runCryptoPipeline_inj.trans (or_congr_right (fnv_one_byte front back a b))⟩

end Hypertile
