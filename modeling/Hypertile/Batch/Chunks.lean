import Mathlib.Algebra.Order.Floor.Div
import Mathlib.Algebra.BigOperators.Fin
import Mathlib.Algebra.Order.BigOperators.Group.Finset
import Mathlib.Data.List.Nodup
import Mathlib.Data.List.TakeWhile
import Mathlib.Data.Multiset.Basic

/-!
# Chunks of a batch

A batch of `total` items is cut into consecutive chunks. `RangePartition` is what the rest of the
development uses of that: non-empty ranges whose concatenation is `0, …, total - 1`. `chunkList` is
such a partition, of chunks of one size with a shorter one at the end.

The three batch calls of the source compute their chunks with machine words: the Python bindings run
over the indices below `num_chunks` and stop at the first empty chunk (`spawnedChunks`), the C call
computes the number of chunks a second time (`actualChunks`). Both give the chunks of `chunkList`
wherever the size of the pool and the number of items are representable, and no word overflows.
-/

namespace Hypertile

/-! ## Ranges that partition an initial segment -/

/-- Non-empty ranges whose concatenation is `0, …, n - 1`. -/
structure RangePartition (n : ℕ) where
  ranges : List (ℕ × ℕ)
  lt : ∀ r ∈ ranges, r.1 < r.2
  flatten : (ranges.flatMap fun r => List.range' r.1 (r.2 - r.1)) = List.range n

namespace RangePartition

variable {n : ℕ} (P : RangePartition n)

/-- The first item of a range. -/
def start (p : Fin P.ranges.length) : ℕ := P.ranges[p].1

/-- The end of a range. -/
def stop (p : Fin P.ranges.length) : ℕ := P.ranges[p].2

/-- The items of a range. -/
def items (p : Fin P.ranges.length) : List ℕ := List.range' (P.start p) (P.stop p - P.start p)

variable {P}

/-- A range is not empty. -/
theorem start_lt_stop (p : Fin P.ranges.length) : P.start p < P.stop p :=
  P.lt _ (List.getElem_mem _)

/-- The items of a range. -/
theorem mem_items {p : Fin P.ranges.length} {i : ℕ} :
    i ∈ P.items p ↔ P.start p ≤ i ∧ i < P.stop p := by
  have := P.start_lt_stop p
  rw [items, List.mem_range'_1]
  omega

/-- Every item is in a range, and a range has no other items. -/
theorem exists_mem_items {i : ℕ} : (∃ p, i ∈ P.items p) ↔ i < n := by
  rw [← List.mem_range, ← P.flatten, List.mem_flatMap]
  constructor
  · rintro ⟨p, hp⟩
    exact ⟨P.ranges[p], List.getElem_mem _, hp⟩
  · rintro ⟨r, hr, hi⟩
    obtain ⟨p, hp, rfl⟩ := List.mem_iff_getElem.1 hr
    exact ⟨⟨p, hp⟩, hi⟩

/-- A range ends within the segment. -/
theorem stop_le (p : Fin P.ranges.length) : P.stop p ≤ n := by
  have hlt := P.start_lt_stop p
  have hmem : P.stop p - 1 ∈ P.items p := mem_items.2 (by omega)
  have := exists_mem_items.1 ⟨p, hmem⟩
  omega

/-- No item is in two ranges. -/
theorem eq_of_mem_items {p q : Fin P.ranges.length} {i : ℕ} (hp : i ∈ P.items p)
    (hq : i ∈ P.items q) : p = q := by
  have hnodup := P.flatten ▸ List.nodup_range (n := n)
  have hdisj := List.pairwise_iff_getElem.1 (List.nodup_flatMap.1 hnodup).2
  rcases lt_trichotomy p.1 q.1 with hpq | hpq | hpq
  · exact absurd hq (List.disjoint_left.1 (hdisj p q p.2 q.2 hpq) hp)
  · exact Fin.ext hpq
  · exact absurd hp (List.disjoint_left.1 (hdisj q p q.2 p.2 hpq) hq)

/-- The ranges have all items between them, each once. -/
theorem sum_items : ∑ p, (P.items p : Multiset ℕ) = (List.range n : Multiset ℕ) := by
  have hsum : ∀ l : List (ℕ × ℕ),
      (l.map fun r => (List.range' r.1 (r.2 - r.1) : Multiset ℕ)).sum =
        ((l.flatMap fun r => List.range' r.1 (r.2 - r.1) : List ℕ) : Multiset ℕ) := by
    intro l
    induction l with
    | nil => rfl
    | cons r l ih => rw [List.map_cons, List.sum_cons, ih, List.flatMap_cons, Multiset.coe_add]
  rw [← P.flatten, ← hsum]
  exact Fin.sum_univ_fun_getElem P.ranges fun r => (List.range' r.1 (r.2 - r.1) : Multiset ℕ)

/-- The lengths of the ranges add up. -/
theorem sum_length : ∑ p, (P.stop p - P.start p) = n := by
  have h := congrArg Multiset.card (P.sum_items)
  simpa [items] using h

/-- There are no more ranges than items. -/
theorem length_le : P.ranges.length ≤ n := by
  calc P.ranges.length = ∑ _p : Fin P.ranges.length, 1 := by simp
    _ ≤ ∑ p, (P.stop p - P.start p) := Finset.sum_le_sum fun p _ => by
        have := P.start_lt_stop p
        omega
    _ = n := P.sum_length

end RangePartition

/-! ## Chunks of one size -/

/-- The chunks of size `size` of `total` items: as many as it takes, the last one possibly shorter.
-/
def chunkList (size total : ℕ) : List (ℕ × ℕ) :=
  (List.range (total ⌈/⌉ size)).map fun k => (k * size, min (k * size + size) total)

/-- The first `k` chunks have the first items. -/
theorem flatMap_chunks (size total k : ℕ) :
    ((List.range k).flatMap fun i =>
        List.range' (i * size) (min (i * size + size) total - i * size)) =
      List.range (min (k * size) total) := by
  induction k with
  | zero => simp
  | succ k ih =>
    rw [List.range_succ, List.flatMap_append, ih, List.flatMap_singleton, Nat.succ_mul]
    rcases Nat.le_total total (k * size) with h | h
    · rw [Nat.min_eq_right h, Nat.min_eq_right (by omega), Nat.sub_eq_zero_of_le h]
      simp
    · rw [Nat.min_eq_left h, List.range_eq_range', List.range_eq_range']
      have hlen : min (k * size + size) total =
          k * size + (min (k * size + size) total - k * size) := by omega
      have happ := List.range'_append_1 (s := 0) (m := k * size)
        (n := min (k * size + size) total - k * size)
      rw [Nat.zero_add] at happ
      rw [happ, ← hlen]

/-- They are a partition of the items. -/
def chunkPartition {size : ℕ} (hsize : 0 < size) (total : ℕ) : RangePartition total where
  ranges := chunkList size total
  lt := by
    intro r hr
    obtain ⟨k, hk, rfl⟩ := List.mem_map.1 hr
    have hlt : ¬total ≤ size * k := fun h =>
      absurd (List.mem_range.1 hk) (not_lt.2 ((ceilDiv_le_iff_le_mul hsize).2 h))
    rw [Nat.mul_comm] at hlt
    show k * size < min (k * size + size) total
    omega
  flatten := by
    have hall : total ≤ (total ⌈/⌉ size) * size := by
      rw [Nat.mul_comm]
      exact (ceilDiv_le_iff_le_mul hsize).1 le_rfl
    rw [chunkList, List.flatMap_map, flatMap_chunks, Nat.min_eq_right hall]

/-! ## The chunks of the source -/

/-- The machine words are the numbers below `wordSize`. -/
def wordSize : ℕ := 2 ^ 64

/-- Subtraction of machine words, as `fetch_sub` does it. -/
def wordSub (a b : ℕ) : ℕ := (a + wordSize - b) % wordSize

/-- `usize::div_ceil`. -/
def divCeil (a b : ℕ) : ℕ := a / b + if 0 < a % b then 1 else 0

/-- `num_chunks`, for a pool with `active` workers. -/
def numChunks (active total : ℕ) : ℕ := max (min (max active 1 * 4 % wordSize) total) 1

/-- `chunk_size`. -/
def chunkSize (active total : ℕ) : ℕ := divCeil total (numChunks active total)

/-- `start` and `end` of the chunk `chunkIdx`. -/
def chunkBounds (size total chunkIdx : ℕ) : ℕ × ℕ :=
  let start := chunkIdx * size % wordSize
  (start, min ((start + size) % wordSize) total)

/-- The chunks that `batch_spawn_native_pipeline` and `batch_spawn_callable` spawn: the loop stops
at the first empty one. -/
def spawnedChunks (active total : ℕ) : List (ℕ × ℕ) :=
  if total = 0 then []
  else ((List.range (numChunks active total)).map
    (chunkBounds (chunkSize active total) total)).takeWhile fun r => r.1 < r.2

/-- `actual_chunks` of `hypertile_batch_spawn`. -/
def actualChunks (active count : ℕ) : ℕ := divCeil count (chunkSize active count)

/-- The chunks that `hypertile_batch_spawn` spawns. -/
def capiChunks (active count : ℕ) : List (ℕ × ℕ) :=
  (List.range (actualChunks active count)).map (chunkBounds (chunkSize active count) count)

/-- A number of items and a number of active workers with which the words do not overflow: the items
fit in memory, and `num_workers * 4` is a word. -/
structure BatchSize where
  total : ℕ
  active : ℕ
  total_lt : total < 2 ^ 63
  active_lt : active * 4 < wordSize

/-- `div_ceil` is the ceiling of the quotient. -/
theorem divCeil_eq {a b : ℕ} (hb : 0 < b) : divCeil a b = a ⌈/⌉ b := by
  have hdiv := Nat.div_add_mod a b
  refine eq_of_forall_ge_iff fun c => ?_
  rw [ceilDiv_le_iff_le_mul hb, divCeil]
  split
  · next hr =>
    have hmod := Nat.mod_lt a hb
    constructor
    · intro hc
      calc a ≤ b * (a / b + 1) := by rw [Nat.mul_succ]; omega
        _ ≤ b * c := Nat.mul_le_mul_left b hc
    · intro hc
      have hlt : b * (a / b) < b * c := by omega
      exact Nat.lt_of_mul_lt_mul_left hlt
  · next hr =>
    have hexact : a = b * (a / b) := by omega
    rw [Nat.add_zero]
    constructor
    · intro hc
      rw [hexact]
      exact Nat.mul_le_mul_left b hc
    · intro hc
      rw [hexact] at hc
      exact Nat.le_of_mul_le_mul_left hc hb

/-- A subtraction that does not go below zero does not wrap. -/
theorem wordSub_eq {a b : ℕ} (hab : b ≤ a) (ha : a < wordSize) : wordSub a b = a - b := by
  have hshift : a + wordSize - b = a - b + wordSize := by omega
  rw [wordSub, hshift, Nat.add_mod_right, Nat.mod_eq_of_lt (by omega)]

/-- There is a chunk. -/
theorem numChunks_pos (active total : ℕ) : 0 < numChunks active total := by
  rw [numChunks]
  omega

/-- There are no more chunks than items. -/
theorem numChunks_le {active total : ℕ} (htotal : 0 < total) : numChunks active total ≤ total := by
  rw [numChunks]
  omega

/-- A chunk has an item. -/
theorem chunkSize_pos {active total : ℕ} (htotal : 0 < total) : 0 < chunkSize active total := by
  rw [chunkSize, divCeil_eq (numChunks_pos active total), Nat.pos_iff_ne_zero]
  intro h
  have := (ceilDiv_le_iff_le_mul (numChunks_pos active total)).1 (le_of_eq h)
  omega

/-- The chunks have room for all items. -/
theorem le_numChunks_mul (active total : ℕ) :
    total ≤ numChunks active total * chunkSize active total := by
  rw [chunkSize, divCeil_eq (numChunks_pos active total)]
  exact (ceilDiv_le_iff_le_mul (numChunks_pos active total)).1 le_rfl

/-- The chunks have room for less than twice the items. -/
theorem numChunks_mul_lt {active total : ℕ} (htotal : 0 < total) :
    numChunks active total * chunkSize active total < 2 * total := by
  have hpos := numChunks_pos active total
  have hle : numChunks active total ≤ total := numChunks_le htotal
  have hsize : 0 < chunkSize active total := chunkSize_pos htotal
  have hlt : ¬total ≤ numChunks active total * (chunkSize active total - 1) := by
    rw [← ceilDiv_le_iff_le_mul hpos, ← divCeil_eq hpos, ← chunkSize]
    omega
  have hsplit : numChunks active total * chunkSize active total =
      numChunks active total * (chunkSize active total - 1) + numChunks active total := by
    rw [← Nat.mul_succ, Nat.succ_eq_add_one, Nat.sub_add_cancel hsize]
  omega

/-- The index arithmetic does not overflow: `num_workers * 4`, `chunk_idx * chunk_size` and
`start + chunk_size` are words, for every chunk index that a batch call uses. -/
theorem BatchSize.no_overflow (b : BatchSize) (htotal : 0 < b.total) {chunkIdx : ℕ}
    (hidx : chunkIdx < numChunks b.active b.total) :
    max b.active 1 * 4 < wordSize ∧
      chunkIdx * chunkSize b.active b.total + chunkSize b.active b.total < wordSize := by
  have htotal_lt := b.total_lt
  have hactive_lt := b.active_lt
  have hlt : numChunks b.active b.total * chunkSize b.active b.total < 2 * b.total :=
    numChunks_mul_lt htotal
  have hle : (chunkIdx + 1) * chunkSize b.active b.total ≤
      numChunks b.active b.total * chunkSize b.active b.total := Nat.mul_le_mul_right _ hidx
  rw [Nat.succ_mul] at hle
  rw [wordSize] at *
  omega

/-- So the bounds of a chunk are what they would be without words. -/
theorem BatchSize.chunkBounds_eq (b : BatchSize) (htotal : 0 < b.total) {chunkIdx : ℕ}
    (hidx : chunkIdx < numChunks b.active b.total) :
    chunkBounds (chunkSize b.active b.total) b.total chunkIdx =
      (chunkIdx * chunkSize b.active b.total,
        min (chunkIdx * chunkSize b.active b.total + chunkSize b.active b.total) b.total) := by
  obtain ⟨-, hlt⟩ := b.no_overflow htotal hidx
  rw [chunkBounds, Nat.mod_eq_of_lt (by omega), Nat.mod_eq_of_lt hlt]

/-- The number of non-empty chunks is at most `num_chunks`. -/
theorem actualChunks_le {active count : ℕ} (hcount : 0 < count) :
    actualChunks active count ≤ numChunks active count := by
  rw [actualChunks, divCeil_eq (chunkSize_pos hcount),
    ceilDiv_le_iff_le_mul (chunkSize_pos hcount), Nat.mul_comm]
  exact le_numChunks_mul active count

/-- The C call spawns a partition of the items. -/
theorem BatchSize.capiChunks_eq (b : BatchSize) (htotal : 0 < b.total) :
    capiChunks b.active b.total = chunkList (chunkSize b.active b.total) b.total := by
  rw [capiChunks, chunkList, ← divCeil_eq (chunkSize_pos htotal), ← actualChunks]
  refine List.map_congr_left fun k hk => b.chunkBounds_eq htotal ?_
  exact (List.mem_range.1 hk).trans_le (actualChunks_le htotal)

/-- The indices below `m` up to the first one that is not below `c`. -/
theorem takeWhile_range (m c : ℕ) : (List.range m).takeWhile (· < c) = List.range (min m c) := by
  induction m with
  | zero => simp
  | succ m ih =>
    rw [List.range_succ, List.takeWhile_append]
    rcases Nat.lt_or_ge m c with h | h
    · have hall : (List.range m).takeWhile (· < c) = List.range m := by
        rw [ih, Nat.min_eq_left h.le]
      rw [if_pos (by rw [hall]), Nat.min_eq_left h, List.range_succ]
      simp [h]
    · rw [Nat.min_eq_right (by omega), ih, Nat.min_eq_right h]
      split
      · next hlen =>
        have hmc : m = c := by
          rw [List.length_range, List.length_range] at hlen
          omega
        simp [hmc]
      · rfl

/-- The Python bindings spawn the same partition: the loop over `num_chunks` stops after the chunks
that are not empty. -/
theorem BatchSize.spawnedChunks_eq (b : BatchSize) (htotal : 0 < b.total) :
    spawnedChunks b.active b.total = chunkList (chunkSize b.active b.total) b.total := by
  have hsize : 0 < chunkSize b.active b.total := chunkSize_pos htotal
  have hbounds : (List.range (numChunks b.active b.total)).map
      (chunkBounds (chunkSize b.active b.total) b.total) =
      (List.range (numChunks b.active b.total)).map fun k =>
        (k * chunkSize b.active b.total,
          min (k * chunkSize b.active b.total + chunkSize b.active b.total) b.total) :=
    List.map_congr_left fun k hk => b.chunkBounds_eq htotal (List.mem_range.1 hk)
  have hlt : ∀ k, (k * chunkSize b.active b.total <
      min (k * chunkSize b.active b.total + chunkSize b.active b.total) b.total) ↔
      k < actualChunks b.active b.total := by
    intro k
    have hceil : actualChunks b.active b.total ≤ k ↔ b.total ≤ k * chunkSize b.active b.total := by
      rw [actualChunks, divCeil_eq hsize, ceilDiv_le_iff_le_mul hsize, Nat.mul_comm]
    omega
  rw [spawnedChunks, if_neg htotal.ne', hbounds, List.takeWhile_map]
  have hpred : ((fun r : ℕ × ℕ => decide (r.1 < r.2)) ∘ fun k =>
        (k * chunkSize b.active b.total,
          min (k * chunkSize b.active b.total + chunkSize b.active b.total) b.total)) =
      fun k => decide (k < actualChunks b.active b.total) := by
    funext k
    exact decide_eq_decide.2 (hlt k)
  rw [hpred, takeWhile_range, Nat.min_eq_right (actualChunks_le htotal), chunkList,
    ← divCeil_eq hsize, ← actualChunks]

/-- The chunks that the Python bindings spawn. -/
def BatchSize.spawned (b : BatchSize) : RangePartition b.total where
  ranges := spawnedChunks b.active b.total
  lt := by
    intro r hr
    rw [spawnedChunks] at hr
    split at hr
    · cases hr
    · have hlt := List.mem_takeWhile_imp hr
      exact of_decide_eq_true hlt
  flatten := by
    rcases Nat.eq_zero_or_pos b.total with h | h
    · simp [spawnedChunks, h]
    · rw [b.spawnedChunks_eq h]
      exact (chunkPartition (chunkSize_pos h) b.total).flatten

/-- The chunks that the C call spawns. -/
def BatchSize.capi (b : BatchSize) (htotal : 0 < b.total) : RangePartition b.total where
  ranges := capiChunks b.active b.total
  lt := by
    rw [b.capiChunks_eq htotal]
    exact (chunkPartition (chunkSize_pos htotal) b.total).lt
  flatten := by
    rw [b.capiChunks_eq htotal]
    exact (chunkPartition (chunkSize_pos htotal) b.total).flatten

/-- The thread of chunk `k` of a batch with `n` chunks, or the caller where there is no such chunk.
-/
def chunkThread (n k : ℕ) : Fin n ⊕ Unit := if h : k < n then .inl ⟨k, h⟩ else .inr ()

end Hypertile
