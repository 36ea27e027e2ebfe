import Hypertile.Native.Words
import Mathlib.Tactic.LinearCombination

/-!
# The random numbers of a worker

The model of `fast_rand` in `worker.rs`, by which `find_task` chooses the peer that it starts at.
The state of the thread goes up by a constant in each call; a state of zero stands for no state, so
a thread that comes to zero is seeded again. The numbers of a worker therefore repeat with a period
that its id determines (`randPeriod`), and as the scrambling of the state loses nothing
(`mix_injective`), no number comes twice within a period (`fastRand_period`).
-/

namespace Hypertile

open Words

/-! ## The generator -/

/-- The constant that the state goes up by. -/
def gamma : BitVec 64 := 0x9e3779b97f4a7c15#64

/-- The first state of a worker. -/
def seed (workerId : BitVec 64) : BitVec 64 :=
  let s := (workerId + gamma) * 0xbf58476d1ce4e5b9#64
  if s = 0 then 0x853c49e65d6f8304#64 else s

/-- The number that a state is scrambled to. -/
def mix (s : BitVec 64) : BitVec 64 :=
  let z := (s ^^^ s >>> 30) * 0xbf58476d1ce4e5b9#64
  let z := (z ^^^ z >>> 27) * 0x94d049bb133111eb#64
  z ^^^ z >>> 31

/-- `fast_rand`: the new state of the thread, and the number. -/
def fastRand (workerId state : BitVec 64) : BitVec 64 × BitVec 64 :=
  let s := (if state = 0 then seed workerId else state) + gamma
  (s, mix s)

/-- The state of a thread that has called `fast_rand` for this worker `n` times. -/
def randState (workerId : BitVec 64) : ℕ → BitVec 64
  | 0 => 0
  | n + 1 => (fastRand workerId (randState workerId n)).1

/-- The number that the next call gives. -/
def randNumber (workerId : BitVec 64) (n : ℕ) : BitVec 64 :=
  (fastRand workerId (randState workerId n)).2

/-! ## Nothing is lost -/

/-- The scrambling of a state loses nothing. -/
theorem mix_injective : Function.Injective mix := by
  have hfirst : IsUnit (0xbf58476d1ce4e5b9#64) :=
    IsUnit.of_mul_eq_one 0x96de1b173f119089#64 (by decide)
  have hsecond : IsUnit (0x94d049bb133111eb#64) :=
    IsUnit.of_mul_eq_one 0x319642b2d24d8ec3#64 (by decide)
  intro s t h
  have hz := xorShiftRight_injective (by decide : 0 < 31) h
  have hz' := xorShiftRight_injective (by decide : 0 < 27) (hsecond.mul_left_injective hz)
  exact xorShiftRight_injective (by decide : 0 < 30) (hfirst.mul_left_injective hz')

/-- What the constant has to be multiplied with to give one. -/
def gammaInv : BitVec 64 := 0xf1de83e19937733d#64

/-- The constant is odd. -/
theorem gamma_mul_gammaInv : gamma * gammaInv = 1 := by decide

/-- A worker has a first state. -/
theorem seed_ne_zero (workerId : BitVec 64) : seed workerId ≠ 0 := by
  unfold seed
  intro h
  simp only at h
  split at h
  · exact absurd h (by decide)
  · contradiction

/-! ## The period -/

/-- After how many calls the state of a worker comes to zero. -/
def randPeriod (workerId : BitVec 64) : ℕ := (-seed workerId * gammaInv).toNat

/-- Where a sequence that goes up by a constant that has an inverse comes to zero. -/
theorem add_mul_eq_zero {R : Type} [CommRing R] {g g' : R} (h : g * g' = 1) {s k : R} :
    s + k * g = 0 ↔ k = -s * g' := by
  constructor
  · intro hzero
    linear_combination g' * hzero - k * h
  · rintro rfl
    linear_combination -s * h

/-- The steps from the first state of a worker that lead to zero. -/
theorem seed_add_eq_zero {workerId : BitVec 64} {k : ℕ} (hk : k < 2 ^ 64) :
    seed workerId + BitVec.ofNat 64 k * gamma = 0 ↔ k = randPeriod workerId := by
  rw [add_mul_eq_zero gamma_mul_gammaInv, randPeriod, ← BitVec.toNat_inj, BitVec.toNat_ofNat,
    Nat.mod_eq_of_lt hk]

/-- The state does come to zero. -/
theorem randPeriod_pos (workerId : BitVec 64) : 0 < randPeriod workerId := by
  refine Nat.pos_of_ne_zero fun hzero => seed_ne_zero workerId ?_
  simpa using (seed_add_eq_zero (k := 0) (by decide)).2 hzero.symm

/-- The state after a call is counted from the last time it came to zero. -/
theorem randState_succ (workerId : BitVec 64) (n : ℕ) :
    randState workerId (n + 1) =
      seed workerId + BitVec.ofNat 64 (n % randPeriod workerId + 1) * gamma := by
  have hpos := randPeriod_pos workerId
  have hlt : randPeriod workerId < 2 ^ 64 := BitVec.isLt _
  induction n with
  | zero => simp [randState, fastRand]
  | succ n ih =>
    have hmod := Nat.mod_lt n hpos
    have hround := Nat.mod_add_mod n (randPeriod workerId) 1
    rw [randState, ih, fastRand]
    simp only [seed_add_eq_zero (show n % randPeriod workerId + 1 < 2 ^ 64 by omega)]
    split
    · next hend =>
      -- the state is zero, and the next call begins anew
      rw [hend, Nat.mod_self] at hround
      simp [← hround]
    · next hgo =>
      rw [Nat.mod_eq_of_lt (by omega)] at hround
      have hone : BitVec.ofNat 64 1 = 1 := rfl
      rw [← hround, BitVec.ofNat_add (n % randPeriod workerId + 1) 1, add_mul, hone, one_mul,
        add_assoc]

/-- The state of a worker comes to zero at its period for the first time. -/
theorem randState_eq_zero {workerId : BitVec 64} {n : ℕ} (hpos : 0 < n)
    (hle : n ≤ randPeriod workerId) : randState workerId n = 0 ↔ n = randPeriod workerId := by
  have hlt : randPeriod workerId < 2 ^ 64 := BitVec.isLt _
  obtain ⟨m, rfl⟩ : ∃ m, n = m + 1 := ⟨n - 1, by omega⟩
  rw [randState_succ, Nat.mod_eq_of_lt (show m < randPeriod workerId by omega),
    seed_add_eq_zero (by omega)]

/-- The numbers that `fast_rand` gives a worker repeat with a period that its id determines, after
which its state comes to zero for the first time, and no number comes twice within a period. -/
theorem fastRand_period (workerId : BitVec 64) :
    0 < randPeriod workerId ∧ randPeriod workerId < 2 ^ 64 ∧
      randState workerId (randPeriod workerId) = 0 ∧
      (∀ n, 0 < n → n < randPeriod workerId → randState workerId n ≠ 0) ∧
      ∀ i j, randNumber workerId i = randNumber workerId j ↔
        i % randPeriod workerId = j % randPeriod workerId := by
  have hpos := randPeriod_pos workerId
  have hlt : randPeriod workerId < 2 ^ 64 := BitVec.isLt _
  have hunit : IsUnit gamma := IsUnit.of_mul_eq_one gammaInv gamma_mul_gammaInv
  refine ⟨hpos, hlt, (randState_eq_zero hpos le_rfl).2 rfl, fun n hn hless hzero => ?_,
    fun i j => ?_⟩
  · exact absurd ((randState_eq_zero hn hless.le).1 hzero) hless.ne
  have hi := Nat.mod_lt i hpos
  have hj := Nat.mod_lt j hpos
  calc randNumber workerId i = randNumber workerId j
      ↔ randState workerId (i + 1) = randState workerId (j + 1) := mix_injective.eq_iff
    _ ↔ BitVec.ofNat 64 (i % randPeriod workerId + 1) =
          BitVec.ofNat 64 (j % randPeriod workerId + 1) := by
        rw [randState_succ, randState_succ, add_right_inj, hunit.mul_left_inj]
    _ ↔ i % randPeriod workerId = j % randPeriod workerId := by
        rw [← BitVec.toNat_inj, BitVec.toNat_ofNat, BitVec.toNat_ofNat,
          Nat.mod_eq_of_lt (show i % randPeriod workerId + 1 < 2 ^ 64 by omega),
          Nat.mod_eq_of_lt (show j % randPeriod workerId + 1 < 2 ^ 64 by omega),
          Nat.add_right_cancel_iff]

end Hypertile
