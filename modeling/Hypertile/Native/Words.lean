import Mathlib.Algebra.Group.Units.Basic
import Mathlib.Data.BitVec

/-!
# Words and buffers

Operations on machine words that lose nothing (`rotateLeft_injective`, `xorShiftRight_injective`,
and a loop of such steps, `foldl_injective`), the bytes of a word in little-endian order
(`leBytes`), and buffers of which a part is overwritten (`overwrite`): what is read from there is
what was written, and the rest is as before.
-/

namespace Words

/-! ## Steps that lose nothing -/

/-- A rotation loses nothing. -/
theorem rotateLeft_injective {w : ℕ} (r : ℕ) :
    Function.Injective fun x : BitVec w => x.rotateLeft r := by
  intro x y h
  refine BitVec.eq_of_getLsbD_eq fun i hi => ?_
  have hr : r % w < w := Nat.mod_lt _ (by omega)
  -- bit `i` is moved to `i + r`, or comes round to `i + r - w`
  by_cases hwrap : i + r % w < w
  · have hbit := congrArg (fun z : BitVec w => z.getLsbD (i + r % w)) h
    have hhigh : ¬ i + r % w < r % w := by omega
    simpa [BitVec.getLsbD_rotateLeft, hhigh, hwrap, BitVec.getLsbD_eq_getElem hi] using hbit
  · have hbit := congrArg (fun z : BitVec w => z.getLsbD (i + r % w - w)) h
    have hlow : i + r % w - w < r % w := by omega
    have hback : w - r % w + (i + r % w - w) = i := by omega
    simpa [BitVec.getLsbD_rotateLeft, hlow, hback] using hbit

/-- A word combined with its own upper bits: nothing is lost. -/
theorem xorShiftRight_injective {w r : ℕ} (hr : 0 < r) :
    Function.Injective fun x : BitVec w => x ^^^ x >>> r := by
  intro x y h
  have hbit : ∀ i, (x.getLsbD i ^^ x.getLsbD (r + i)) = (y.getLsbD i ^^ y.getLsbD (r + i)) := by
    intro i
    have hi := congrArg (fun z : BitVec w => z.getLsbD i) h
    simpa only [BitVec.getLsbD_xor, BitVec.getLsbD_ushiftRight] using hi
  -- from the top: the bits above `i` are known to agree
  have hsame : ∀ n i, w ≤ i + n → x.getLsbD i = y.getLsbD i := by
    intro n
    induction n with
    | zero =>
      intro i hi
      rw [BitVec.getLsbD_of_ge x i (by omega), BitVec.getLsbD_of_ge y i (by omega)]
    | succ n ih =>
      intro i hi
      have hupper := ih (r + i) (by omega)
      have hboth := hbit i
      rw [hupper] at hboth
      exact Bool.xor_left_inj.1 hboth
  exact BitVec.eq_of_getLsbD_eq fun i _ => hsame w i (by omega)

/-- A loop of steps that lose nothing loses nothing. -/
theorem foldl_injective {S A : Type*} {f : S → A → S}
    (hf : ∀ a, Function.Injective fun s => f s a) :
    ∀ l : List A, Function.Injective fun s => l.foldl f s
  | [] => Function.injective_id
  | a :: l => (foldl_injective hf l).comp (hf a)

/-! ## Bytes -/

/-- The first `n` bytes of a word, the least significant one first. -/
def leBytes {w : ℕ} (n : ℕ) (x : BitVec w) : List (BitVec 8) :=
  (List.range n).map fun i => x.extractLsb' (8 * i) 8

@[simp] theorem length_leBytes {w : ℕ} (n : ℕ) (x : BitVec w) : (leBytes n x).length = n := by
  simp [leBytes]

/-- All its bytes determine a word. -/
theorem leBytes_injective {w n : ℕ} (hw : w ≤ 8 * n) :
    Function.Injective (leBytes n : BitVec w → List (BitVec 8)) := by
  intro x y h
  ext i hi
  have hbyte := List.map_inj_left.1 h (i / 8) (List.mem_range.2 (by omega))
  have hbit := congrArg (fun b : BitVec 8 => b.getLsbD (i % 8)) hbyte
  have hmod : i % 8 < 8 := Nat.mod_lt _ (by decide)
  have hsplit : 8 * (i / 8) + i % 8 = i := Nat.div_add_mod ..
  simpa [BitVec.getLsbD_extractLsb', hmod, hsplit, BitVec.getLsbD_eq_getElem hi] using hbit

/-! ## Buffers -/

section
variable {α : Type*} {buf xs : List α} {k : ℕ}

/-- Overwrites the part of a buffer that begins at `k`. -/
def overwrite (buf : List α) (k : ℕ) (xs : List α) : List α :=
  buf.take k ++ xs ++ buf.drop (k + xs.length)

/-- The `n` elements from `j`. -/
def slice (buf : List α) (j n : ℕ) : List α := (buf.drop j).take n

/-- A buffer keeps its length. -/
theorem length_overwrite (h : k + xs.length ≤ buf.length) :
    (overwrite buf k xs).length = buf.length := by
  simp only [overwrite, List.length_append, List.length_take, List.length_drop]
  omega

/-- What is read where something was written is what was written. -/
theorem slice_overwrite (h : k ≤ buf.length) : slice (overwrite buf k xs) k xs.length = xs := by
  have hk : (buf.take k).length = k := List.length_take_of_le h
  rw [slice, overwrite, List.append_assoc, List.drop_append_of_le_length hk.ge,
    List.drop_eq_nil_of_le hk.le, List.nil_append, List.take_left]

/-- What is read elsewhere is as before. -/
theorem slice_overwrite_of_disjoint {j n : ℕ} (h : k + xs.length ≤ buf.length)
    (hj : j + n ≤ k ∨ k + xs.length ≤ j) : slice (overwrite buf k xs) j n = slice buf j n := by
  refine List.ext_getElem? fun i => ?_
  simp only [slice, overwrite, List.getElem?_take, List.getElem?_drop, List.getElem?_append,
    List.length_append, List.length_take]
  grind

end

end Words
