import Hypertile.Batch.Core
import Hypertile.Completion.Drain

/-!
# Chunked batches

The chunks of a batch, whatever the order of their futures, leave behind the results of all items in
order, or the message of an item that panicked (`batch_lawful`). The invariant is a sum over the
chunks: `remaining` is the length of the chunks that have not published, and the items processed are
those that each chunk has come to (`BatchInv`).
-/

namespace Hypertile

open Machine Machine.Threads

variable {ρ V E κ ι : Type}

/-! ## One future -/

/-- Where the future stands, and what it has stored. -/
def singleInv (out : ρ) (d : SingleInner ρ) : Option (SingleWork ρ) → Prop
  | some .running => d = ⟨none, false⟩
  | some (.storing res) => d = ⟨none, false⟩ ∧ res = out
  | some .publishing => d = ⟨some out, false⟩
  | none => d = ⟨some out, true⟩

/-- A step of the future. -/
theorem singleInv_step {out : ρ} {d : SingleInner ρ} {w : SingleWork ρ}
    (h : singleInv out d (some w)) :
    singleInv out (singleWork out d w).1 (singleWork out d w).2.getLeft? := by
  cases w with
  | running => exact ⟨h, rfl⟩
  | storing res =>
    obtain ⟨rfl, rfl⟩ := h
    rfl
  | publishing =>
    cases h
    rfl

/-- A task with one future completes soundly, with what the future stored. -/
def singleLawful (out : ρ) (read : ρ → Except (PyErr E) V) : (singleTask out read).Lawful where
  Inv d f := ∀ p, singleInv out d (f p)
  init _ := rfl
  step := by
    intro d f p w r hI hp hr q
    cases hr
    have hqp : q = p := Subsingleton.elim (α := Fin 1) q p
    rw [hqp, Function.update_self]
    exact singleInv_step (hp ▸ hI p)
  last := by
    intro d f p w d' final hI hp hr
    cases w with
    | running => cases hr
    | storing res => cases hr
    | publishing => cases hr; rfl
  done_iff := by
    intro d f hI
    constructor
    · intro hdone p
      have hp := hI p
      cases hw : f p with
      | none => rfl
      | some w =>
        rw [hw] at hp
        cases w with
        | running => cases hp; cases hdone
        | storing res => cases hp.1; cases hdone
        | publishing => cases hp; cases hdone
    · intro hall
      have h0 := hI (0 : Fin 1)
      rw [hall (0 : Fin 1)] at h0
      cases h0
      rfl
  outcome := by
    intro d f hI hdone
    have h0 := hI (0 : Fin 1)
    cases hw : f (0 : Fin 1) with
    | none => rw [hw] at h0; cases h0; rfl
    | some w =>
      rw [hw] at h0
      cases w with
      | running => cases h0; cases hdone
      | storing res => cases h0.1; cases hdone
      | publishing => cases h0; cases hdone

/-! ## The steps of a chunk -/

/-- Storing a chunk changes the results at its own indices only. -/
theorem getElem?_storeChunk_of_not {chunkRes : List ρ} {s i : ℕ} {results : List (Option ρ)}
    (hi : ¬(s ≤ i ∧ i < s + chunkRes.length)) :
    (storeChunk s chunkRes results)[i]? = results[i]? := by
  induction chunkRes generalizing s results with
  | nil => rfl
  | cons res rest ih =>
    rw [List.length_cons] at hi
    rw [storeChunk, ih (by omega), List.getElem?_set_ne (by omega)]

/-- The results of a chunk are stored from its start on. -/
theorem getElem?_storeChunk {chunkRes : List ρ} {s k : ℕ} {results : List (Option ρ)} {res : ρ}
    (hres : chunkRes[k]? = some res) (hlen : s + k < results.length) :
    (storeChunk s chunkRes results)[s + k]? = some (some res) := by
  induction chunkRes generalizing s k results with
  | nil => cases hres
  | cons first rest ih =>
    cases k with
    | zero =>
      cases hres
      rw [storeChunk, getElem?_storeChunk_of_not (by omega)]
      exact List.getElem?_set_self hlen
    | succ k =>
      have hshift : s + (k + 1) = s + 1 + k := by omega
      rw [storeChunk, hshift]
      exact ih hres (by rw [List.length_set]; omega)

/-- Storing a chunk keeps the number of results. -/
theorem length_storeChunk (chunkRes : List ρ) (s : ℕ) (results : List (Option ρ)) :
    (storeChunk s chunkRes results).length = results.length := by
  induction chunkRes generalizing s results with
  | nil => rfl
  | cons res rest ih => rw [storeChunk, ih, List.length_set]

/-- `ChunkTrans b p d w d' n`: the future of chunk `p` at `w` can take a step from `d`, to `d'` and
`n`. -/
inductive ChunkTrans (b : Batch ρ) (p : Fin b.chunks.ranges.length) (d : BatchInner ρ) :
    ChunkWork ρ → BatchInner ρ → ChunkWork ρ ⊕ Bool → Prop
  | process {i : ℕ} {chunkRes : List ρ} {res : ρ} (hi : i < b.chunks.stop p)
      (hres : b.items[i]? = some (.ok res)) :
      ChunkTrans b p d (.item i chunkRes) { d with processed := i :: d.processed }
        (.inl (.item (i + 1) (chunkRes ++ [res])))
  | panic {i : ℕ} {chunkRes : List ρ} {msg : String} (hi : i < b.chunks.stop p)
      (hmsg : b.items[i]? = some (.error msg)) :
      ChunkTrans b p d (.item i chunkRes) { d with processed := i :: d.processed }
        (.inl (.storing (.error msg)))
  | finish {i : ℕ} {chunkRes : List ρ} (hi : ¬i < b.chunks.stop p) :
      ChunkTrans b p d (.item i chunkRes) d (.inl (.storing (.ok chunkRes)))
  | store {chunkRes : List ρ} : ChunkTrans b p d (.storing (.ok chunkRes))
      { d with results := storeChunk (b.chunks.start p) chunkRes d.results } (.inl .publishing)
  | storePanic {msg : String} : ChunkTrans b p d (.storing (.error msg))
      { d with panicError := some msg } (.inl .publishing)
  | publish : ChunkTrans b p d .publishing
      { d with remaining := wordSub d.remaining (b.chunks.stop p - b.chunks.start p) }
      (.inr (d.remaining == b.chunks.stop p - b.chunks.start p))

/-- What a step of the future of a chunk can do. -/
theorem chunkWork_trans {b : Batch ρ} {p : Fin b.chunks.ranges.length} {d : BatchInner ρ}
    {w : ChunkWork ρ} {r : BatchInner ρ × (ChunkWork ρ ⊕ Bool)} (h : chunkWork b p d w = some r) :
    ChunkTrans b p d w r.1 r.2 := by
  cases w with
  | item i chunkRes =>
    simp only [chunkWork] at h
    split at h
    · next hi =>
      split at h
      · next res hres => cases h; exact .process hi hres
      · next msg hmsg => cases h; exact .panic hi hmsg
      · cases h
    · next hi => cases h; exact .finish hi
  | storing chunkRes =>
    cases chunkRes with
    | ok chunkRes => cases h; exact .store
    | error msg => cases h; exact .storePanic
  | publishing => cases h; exact .publish

/-! ## The invariant -/

namespace Batch

variable (b : Batch ρ)

/-- What processing the items of a chunk ends with. -/
def chunkItems (p : Fin b.chunks.ranges.length) : List (Except String ρ) :=
  (b.items.drop (b.chunks.start p)).take (b.chunks.stop p - b.chunks.start p)

/-- The items that the future of a chunk comes to: those up to the first that panics. -/
def tried (p : Fin b.chunks.ranges.length) : List ℕ :=
  (b.chunks.items p).take (((b.chunkItems p).takeWhile Except.toBool).length + 1)

/-- The items that the future of a chunk has processed. -/
def processedBy (p : Fin b.chunks.ranges.length) : Option (ChunkWork ρ) → List ℕ
  | some (.item i _) => List.range' (b.chunks.start p) (i - b.chunks.start p)
  | _ => b.tried p

/-- The length of a chunk that has not published. -/
def owedBy (p : Fin b.chunks.ranges.length) : Option (ChunkWork ρ) → ℕ
  | some _ => b.chunks.stop p - b.chunks.start p
  | none => 0

/-- The results of a chunk have been stored, or the message of a panic in it. -/
def Stored (p : Fin b.chunks.ranges.length) (d : BatchInner ρ) : Prop :=
  (∀ i ∈ b.chunks.items p, ∃ res, b.items[i]? = some (.ok res) ∧ d.results[i]? = some (some res)) ∨
    d.panicError ≠ none ∧ ∃ msg, .error msg ∈ b.chunkItems p

/-- What the place of the future of a chunk says. -/
def ChunkInv (p : Fin b.chunks.ranges.length) (d : BatchInner ρ) : Option (ChunkWork ρ) → Prop
  | some (.item i chunkRes) => b.chunks.start p ≤ i ∧ i ≤ b.chunks.stop p ∧
      (b.items.drop (b.chunks.start p)).take (i - b.chunks.start p) = chunkRes.map .ok
  | some (.storing (.ok chunkRes)) => b.chunkItems p = chunkRes.map .ok
  | some (.storing (.error msg)) => .error msg ∈ b.chunkItems p
  | some .publishing | none => b.Stored p d

end Batch

/-- The invariant of a batch, where the futures of its chunks stand at `f`. -/
structure BatchInv (b : Batch ρ) (d : BatchInner ρ)
    (f : Fin b.chunks.ranges.length → Option (ChunkWork ρ)) : Prop where
  length : d.results.length = b.items.length
  chunk : ∀ p, b.ChunkInv p d (f p)
  panic : ∀ msg, d.panicError = some msg → .error msg ∈ b.items
  remaining : d.remaining = ∑ p, b.owedBy p (f p)
  processed : (d.processed : Multiset ℕ) = ∑ p, (b.processedBy p (f p) : Multiset ℕ)

namespace Batch

variable {b : Batch ρ} {p q : Fin b.chunks.ranges.length} {d d' : BatchInner ρ}

/-- Item `i` of a chunk, counted from the start of the chunk. -/
theorem getElem?_drop_start {i : ℕ} (hi : b.chunks.start p ≤ i) :
    (b.items.drop (b.chunks.start p))[i - b.chunks.start p]? = b.items[i]? := by
  rw [List.getElem?_drop]
  congr 1
  omega

/-- A chunk has as many items as its range. -/
theorem length_chunkItems : (b.chunkItems p).length = b.chunks.stop p - b.chunks.start p := by
  have := b.chunks.stop_le p
  rw [chunkItems, List.length_take, List.length_drop]
  omega

/-- An item of a chunk. -/
theorem getElem?_chunkItems {i : ℕ} (hi : i ∈ b.chunks.items p) :
    (b.chunkItems p)[i - b.chunks.start p]? = b.items[i]? := by
  obtain ⟨hstart, hstop⟩ := RangePartition.mem_items.1 hi
  rw [chunkItems, List.getElem?_take, if_pos (by omega), getElem?_drop_start hstart]

/-- The outcome of an item of a chunk is an outcome of the batch. -/
theorem mem_of_mem_chunkItems {r : Except String ρ} (h : r ∈ b.chunkItems p) : r ∈ b.items :=
  List.mem_of_mem_drop (List.mem_of_mem_take h)

/-- The number of results so far. -/
theorem length_of_take {i : ℕ} {chunkRes : List ρ} (hi : i ≤ b.chunks.stop p)
    (h : (b.items.drop (b.chunks.start p)).take (i - b.chunks.start p) = chunkRes.map .ok) :
    chunkRes.length = i - b.chunks.start p := by
  have hstop := b.chunks.stop_le p
  have hlen := congrArg List.length h
  rw [List.length_take, List.length_drop, List.length_map] at hlen
  omega

/-- A future that has got `chunkRes` and then stops, at the end of its chunk or at an item that
panics, has come to this item and no further. -/
theorem tried_eq {i : ℕ} {chunkRes : List ρ} (hstart : b.chunks.start p ≤ i)
    (h : (b.items.drop (b.chunks.start p)).take (i - b.chunks.start p) = chunkRes.map .ok)
    (hi : i ≤ b.chunks.stop p)
    (hend : i = b.chunks.stop p ∨ ∃ msg, b.items[i]? = some (.error msg)) :
    b.tried p = (b.chunks.items p).take (i - b.chunks.start p + 1) := by
  have hsplit : b.chunkItems p =
      chunkRes.map .ok ++ (b.chunkItems p).drop (i - b.chunks.start p) := by
    have htake : (b.chunkItems p).take (i - b.chunks.start p) = chunkRes.map .ok := by
      rw [chunkItems, List.take_take, Nat.min_eq_left (by omega), h]
    rw [← htake, List.take_append_drop]
  have hrest : ((b.chunkItems p).drop (i - b.chunks.start p)).takeWhile Except.toBool = [] := by
    rcases hend with hend | ⟨msg, hmsg⟩
    · rw [List.drop_eq_nil_of_le (by rw [length_chunkItems, hend])]
      rfl
    · rcases Nat.lt_or_ge i (b.chunks.stop p) with hlt | hge
      · have hmem : i ∈ b.chunks.items p := RangePartition.mem_items.2 ⟨hstart, hlt⟩
        obtain ⟨hidx, hget⟩ := List.getElem?_eq_some_iff.1 ((getElem?_chunkItems hmem).trans hmsg)
        rw [List.drop_eq_getElem_cons hidx, hget]
        rfl
      · rw [List.drop_eq_nil_of_le (by rw [length_chunkItems]; omega)]
        rfl
  rw [tried, hsplit, List.takeWhile_append_of_pos, hrest, List.append_nil, List.length_map,
    length_of_take hi h]
  intro r hr
  obtain ⟨res, -, rfl⟩ := List.mem_map.1 hr
  rfl

/-- What is stored for a chunk is kept by a step that stores for another, or a panic. -/
theorem Stored.mono (h : b.Stored p d) (hpanic : d.panicError ≠ none → d'.panicError ≠ none)
    (hres : ∀ i ∈ b.chunks.items p, d'.results[i]? = d.results[i]?) : b.Stored p d' := by
  rcases h with h | ⟨hp, hmsg⟩
  · left
    intro i hi
    rw [hres i hi]
    exact h i hi
  · exact .inr ⟨hpanic hp, hmsg⟩

/-- The place of a future says the same after such a step. -/
theorem ChunkInv.mono {w : Option (ChunkWork ρ)} (h : b.ChunkInv p d w)
    (hpanic : d.panicError ≠ none → d'.panicError ≠ none)
    (hres : ∀ i ∈ b.chunks.items p, d'.results[i]? = d.results[i]?) : b.ChunkInv p d' w := by
  match w, h with
  | some (.item i chunkRes), h => exact h
  | some (.storing (.ok chunkRes)), h => exact h
  | some (.storing (.error msg)), h => exact h
  | some .publishing, h => exact Stored.mono h hpanic hres
  | none, h => exact Stored.mono h hpanic hres

/-- A future that has processed its chunk has a result for each item. -/
theorem length_of_storing {chunkRes : List ρ} (h : b.chunkItems p = chunkRes.map .ok) :
    chunkRes.length = b.chunks.stop p - b.chunks.start p := by
  rw [← length_chunkItems, h, List.length_map]

/-- A step of the future of a chunk keeps what its place says. -/
theorem ChunkInv.step {w : ChunkWork ρ} {n : ChunkWork ρ ⊕ Bool}
    (hlen : d.results.length = b.items.length) (h : b.ChunkInv p d (some w))
    (ht : ChunkTrans b p d w d' n) : b.ChunkInv p d' n.getLeft? := by
  cases ht with
  | @process i chunkRes res hi hres =>
    obtain ⟨hstart, -, htake⟩ := h
    refine ⟨by omega, hi, ?_⟩
    have hidx : i + 1 - b.chunks.start p = i - b.chunks.start p + 1 := by omega
    rw [hidx, List.take_add_one, htake, getElem?_drop_start hstart, hres, List.map_append]
    rfl
  | @panic i chunkRes msg hi hmsg =>
    obtain ⟨hstart, -, -⟩ := h
    have hmem : i ∈ b.chunks.items p := RangePartition.mem_items.2 ⟨hstart, hi⟩
    exact List.mem_of_getElem? ((getElem?_chunkItems hmem).trans hmsg)
  | @finish i chunkRes hi =>
    obtain ⟨-, hstop, htake⟩ := h
    rwa [Nat.le_antisymm hstop (Nat.le_of_not_lt hi)] at htake
  | @store chunkRes =>
    have h : b.chunkItems p = chunkRes.map .ok := h
    left
    intro i hi
    have hstop := b.chunks.stop_le p
    obtain ⟨hstart, hlt⟩ := RangePartition.mem_items.1 hi
    have hcount := length_of_storing h
    have hidx : i - b.chunks.start p < chunkRes.length := by omega
    have hi' : b.chunks.start p + (i - b.chunks.start p) = i := by omega
    refine ⟨chunkRes[i - b.chunks.start p], ?_, ?_⟩
    · rw [← getElem?_chunkItems hi, h, List.getElem?_map, List.getElem?_eq_getElem hidx]
      rfl
    · have hget : (storeChunk (b.chunks.start p) chunkRes d.results)[b.chunks.start p +
          (i - b.chunks.start p)]? = some (some chunkRes[i - b.chunks.start p]) :=
        getElem?_storeChunk (List.getElem?_eq_getElem hidx) (by omega)
      rwa [hi'] at hget
  | @storePanic msg => exact .inr ⟨fun hnone => Option.some_ne_none msg hnone, msg, h⟩
  | publish => exact Stored.mono (d := d) h id fun _ _ => rfl

/-- What the future of a chunk processes and what it owes, over a step. -/
theorem step_counts {w : ChunkWork ρ} {n : ChunkWork ρ ⊕ Bool} (h : b.ChunkInv p d (some w))
    (ht : ChunkTrans b p d w d' n) :
    (d'.processed : Multiset ℕ) + (b.processedBy p (some w) : Multiset ℕ) =
      (d.processed : Multiset ℕ) + (b.processedBy p n.getLeft? : Multiset ℕ) := by
  -- the item processed comes last among those of the chunk, and first in the record
  have hcons : ∀ (i : ℕ) (l l' : List ℕ),
      ((i :: l : List ℕ) : Multiset ℕ) + (l' : Multiset ℕ) =
        (l : Multiset ℕ) + ((l' ++ [i] : List ℕ) : Multiset ℕ) := by
    intro i l l'
    rw [Multiset.coe_add, Multiset.coe_add, Multiset.coe_eq_coe, ← List.append_assoc]
    exact (List.perm_append_singleton i (l ++ l')).symm
  cases ht with
  | @process i chunkRes res hi hres =>
    obtain ⟨hstart, -, -⟩ := h
    have hidx : i + 1 - b.chunks.start p = i - b.chunks.start p + 1 := by omega
    have hlast : b.chunks.start p + (i - b.chunks.start p) = i := by omega
    show ((i :: d.processed : List ℕ) : Multiset ℕ) + (List.range' _ _ : Multiset ℕ) =
      _ + (List.range' _ (i + 1 - _) : Multiset ℕ)
    rw [hidx, List.range'_1_concat, hlast]
    exact hcons _ _ _
  | @panic i chunkRes msg hi hmsg =>
    obtain ⟨hstart, hstop, htake⟩ := h
    have hlast : b.chunks.start p + (i - b.chunks.start p) = i := by omega
    show ((i :: d.processed : List ℕ) : Multiset ℕ) + (List.range' _ _ : Multiset ℕ) =
      _ + (b.tried p : Multiset ℕ)
    rw [tried_eq hstart htake hstop (.inr ⟨msg, hmsg⟩), RangePartition.items,
      List.take_range'_of_length_ge (by omega), List.range'_1_concat, hlast]
    exact hcons _ _ _
  | @finish i chunkRes hi =>
    obtain ⟨hstart, hstop, htake⟩ := h
    have hend : i = b.chunks.stop p := Nat.le_antisymm hstop (Nat.le_of_not_lt hi)
    show _ + (List.range' _ _ : Multiset ℕ) = _ + (b.tried p : Multiset ℕ)
    rw [tried_eq hstart htake hstop (.inl hend), RangePartition.items,
      List.take_range'_of_length_le (by omega), hend]
  | store | storePanic | publish => rfl

end Batch

/-- A step of the future of a chunk leaves the results of the other chunks as they are, and a panic
recorded. -/
theorem ChunkTrans.frame {b : Batch ρ} {p q : Fin b.chunks.ranges.length} {d d' : BatchInner ρ}
    {w : ChunkWork ρ} {n : ChunkWork ρ ⊕ Bool} (h : b.ChunkInv p d (some w))
    (ht : ChunkTrans b p d w d' n) (hqp : q ≠ p) :
    (d.panicError ≠ none → d'.panicError ≠ none) ∧
      ∀ i ∈ b.chunks.items q, d'.results[i]? = d.results[i]? := by
  cases ht with
  | @store chunkRes =>
    refine ⟨id, fun i hi => ?_⟩
    have hlen := Batch.length_of_storing h
    have hnot : ¬(b.chunks.start p ≤ i ∧ i < b.chunks.start p + chunkRes.length) := by
      rintro ⟨hstart, hlt⟩
      have hmem : i ∈ b.chunks.items p := RangePartition.mem_items.2 ⟨hstart, by omega⟩
      exact hqp (RangePartition.eq_of_mem_items hi hmem)
    exact getElem?_storeChunk_of_not hnot
  | storePanic => exact ⟨fun _ => Option.some_ne_none _, fun _ _ => rfl⟩
  | process | panic | finish | publish => exact ⟨id, fun _ _ => rfl⟩

namespace BatchInv

variable {b : Batch ρ} {p : Fin b.chunks.ranges.length} {d d' : BatchInner ρ}
  {f : Fin b.chunks.ranges.length → Option (ChunkWork ρ)}

/-- The invariant holds of a batch that has just been spawned. -/
theorem init (b : Batch ρ) :
    BatchInv b ⟨List.replicate b.items.length none, b.items.length, none, []⟩
      fun p => some (.item (b.chunks.start p) []) where
  length := List.length_replicate
  chunk p := ⟨le_rfl, (b.chunks.start_lt_stop p).le, by simp⟩
  panic := by
    intro msg h
    cases h
  remaining := b.chunks.sum_length.symm
  processed := by simp [Batch.processedBy]

/-- A future that has not published owes its length, which `remaining` still has. -/
theorem length_le (h : BatchInv b d f) (hp : f p ≠ none) :
    b.chunks.stop p - b.chunks.start p ≤ d.remaining := by
  have howed : b.owedBy p (f p) = b.chunks.stop p - b.chunks.start p := by
    cases hw : f p with
    | none => exact absurd hw hp
    | some w => rfl
  rw [← howed]
  exact le_of_eq_sum h.remaining p

/-- `remaining` is at most the number of items. -/
theorem remaining_le (h : BatchInv b d f) : d.remaining ≤ b.items.length := by
  rw [h.remaining]
  calc ∑ p, b.owedBy p (f p) ≤ ∑ p, (b.chunks.stop p - b.chunks.start p) := by
        refine Finset.sum_le_sum fun p _ => ?_
        cases f p with
        | none => exact Nat.zero_le _
        | some w => exact le_rfl
    _ = b.items.length := b.chunks.sum_length

/-- The subtraction of a future that publishes does not wrap. -/
theorem fetch_sub (h : BatchInv b d f) (hp : f p ≠ none) :
    wordSub d.remaining (b.chunks.stop p - b.chunks.start p) =
      d.remaining - (b.chunks.stop p - b.chunks.start p) :=
  wordSub_eq (h.length_le hp) (h.remaining_le.trans_lt b.total_lt)

/-- A step of the future of a chunk keeps the invariant. -/
theorem step {w : ChunkWork ρ} {n : ChunkWork ρ ⊕ Bool} (h : BatchInv b d f) (hp : f p = some w)
    (ht : ChunkTrans b p d w d' n) : BatchInv b d' (Function.update f p n.getLeft?) := by
  have hchunk : b.ChunkInv p d (some w) := hp ▸ h.chunk p
  refine ⟨?_, ?_, ?_, ?_, ?_⟩
  · cases ht with
    | store => rw [length_storeChunk]; exact h.length
    | _ => exact h.length
  · refine (Function.forall_update_iff f fun q m => b.ChunkInv q d' m).2
      ⟨hchunk.step h.length ht, fun q hq => ?_⟩
    obtain ⟨hpanic, hres⟩ := ht.frame hchunk hq
    exact (h.chunk q).mono hpanic hres
  · intro msg hmsg
    cases ht with
    | storePanic =>
      cases hmsg
      exact Batch.mem_of_mem_chunkItems hchunk
    | _ => exact h.panic msg hmsg
  · have hne : f p ≠ none := by
      rw [hp]
      exact Option.some_ne_none _
    refine eq_sum_update h.remaining ?_
    rw [hp]
    cases ht with
    | publish =>
      have hle := h.length_le hne
      show wordSub d.remaining (b.chunks.stop p - b.chunks.start p) +
        (b.chunks.stop p - b.chunks.start p) = d.remaining + 0
      rw [h.fetch_sub hne]
      omega
    | _ => rfl
  · refine eq_sum_update (g := fun q w => (b.processedBy q w : Multiset ℕ)) h.processed ?_
    rw [hp]
    exact Batch.step_counts hchunk ht

/-- The batch is done once every chunk has published. -/
theorem remaining_eq_zero (h : BatchInv b d f) : d.remaining = 0 ↔ ∀ p, f p = none := by
  rw [h.remaining, Finset.sum_eq_zero_iff]
  refine forall_congr' fun p => ?_
  have := b.chunks.start_lt_stop p
  cases f p with
  | none => simp [Batch.owedBy]
  | some w =>
    simp only [Batch.owedBy, Finset.mem_univ, true_imp_iff, reduceCtorEq, iff_false]
    omega

end BatchInv

/-! ## The results -/

/-- Where every chunk has published and none has panicked, the results are those of all items. -/
theorem BatchInv.values {b : Batch ρ} {d : BatchInner ρ}
    {f : Fin b.chunks.ranges.length → Option (ChunkWork ρ)} (h : BatchInv b d f)
    (hall : ∀ p, f p = none) (hpanic : d.panicError = none) :
    ∃ values : List ρ, b.items = values.map .ok ∧ d.results = values.map some := by
  have hitem : ∀ i : Fin b.items.length, ∃ res,
      b.items[i.1]? = some (.ok res) ∧ d.results[i.1]? = some (some res) := by
    intro i
    obtain ⟨p, hp⟩ := (RangePartition.exists_mem_items (P := b.chunks)).2 i.2
    have hstored : b.Stored p d := by
      have := h.chunk p
      rwa [hall p] at this
    exact (hstored.resolve_right fun hr => hr.1 hpanic) i hp
  choose val hval using hitem
  refine ⟨List.ofFn val, List.ext_getElem? fun i => ?_, List.ext_getElem? fun i => ?_⟩
  · rw [List.getElem?_map, List.getElem?_ofFn]
    split
    · next hi => rw [(hval ⟨i, hi⟩).1]; rfl
    · next hi => rw [List.getElem?_eq_none (by omega)]; rfl
  · rw [List.getElem?_map, List.getElem?_ofFn]
    split
    · next hi => rw [(hval ⟨i, hi⟩).2]; rfl
    · next hi => rw [List.getElem?_eq_none (by rw [h.length]; omega)]; rfl

/-- `result()` of a done batch in which a chunk panicked. -/
theorem batchResult_panic {d : BatchInner ρ} {msg : String} (pending : String)
    (collect : List (Option ρ) → Except (PyErr E) V) (hzero : d.remaining = 0)
    (hpanic : d.panicError = some msg) :
    batchResult pending collect d = .error (.panicInTask msg) := by
  simp [batchResult, hzero, hpanic]

/-- `result()` of a done batch in which no chunk panicked. -/
theorem batchResult_done {d : BatchInner ρ} (pending : String)
    (collect : List (Option ρ) → Except (PyErr E) V) (hzero : d.remaining = 0)
    (hpanic : d.panicError = none) : batchResult pending collect d = collect d.results := by
  simp [batchResult, hzero, hpanic]

/-- A batch completes soundly, with the results of all items or the error of one that panicked. -/
def batchLawful (b : Batch ρ) (pending : String)
    (collect : List (Option ρ) → Except (PyErr E) V) : (batchTask b pending collect).Lawful where
  Inv := BatchInv b
  init := BatchInv.init b
  step := fun hI hp hr => hI.step hp (chunkWork_trans hr)
  last := by
    intro d f p w d' final hI hp hr
    have ht : ChunkTrans b p d w d' (.inr final) := chunkWork_trans hr
    have hne : f p ≠ none := by
      rw [hp]
      exact Option.some_ne_none _
    cases ht with
    | publish =>
      have hle := hI.length_le hne
      show (d.remaining == _) = (wordSub d.remaining _ == 0)
      rw [hI.fetch_sub hne, Bool.eq_iff_iff, beq_iff_eq, beq_iff_eq]
      omega
  done_iff := by
    intro d f hI
    show (d.remaining == 0) = true ↔ _
    rw [beq_iff_eq]
    exact hI.remaining_eq_zero
  outcome := by
    intro d f hI hdone
    have hzero : d.remaining = 0 := beq_iff_eq.1 hdone
    cases hpanic : BatchInner.panicError d with
    | some msg =>
      exact .inr ⟨msg, hI.panic msg hpanic, batchResult_panic pending collect hzero hpanic⟩
    | none =>
      obtain ⟨values, hitems, hres⟩ := hI.values (hI.remaining_eq_zero.1 hzero) hpanic
      exact .inl ⟨values, hitems, hres ▸ batchResult_done pending collect hzero hpanic⟩

/-! ## Chunked batches are the element-wise map -/

/-- What holds of a batch whose inner state is `d`, whose futures stand at `f`, and of which
`finals` futures have been told that they published last. -/
structure ChunkedMap (b : Batch ρ) (d : BatchInner ρ)
    (f : Fin b.chunks.ranges.length → Option (ChunkWork ρ)) (finals : ℕ) : Prop where
  /-- No item is processed twice. -/
  at_most_once : ∀ i, d.processed.count i ≤ 1
  /-- Where none panics, each has been processed once all chunks have published. -/
  exactly_once : (∀ msg, .error msg ∉ b.items) → (∀ p, f p = none) →
    ∀ i < b.items.length, d.processed.count i = 1
  /-- A chunk subtracts no more than is left. -/
  no_underflow : ∀ p, f p = some .publishing →
    b.chunks.stop p - b.chunks.start p ≤ d.remaining
  /-- A chunk has stored its results, or the message of its panic, before it subtracts. -/
  stored : ∀ p, f p = some .publishing ∨ f p = none → b.Stored p d
  zero_iff : d.remaining = 0 ↔ ∀ p, f p = none
  /-- One chunk sees the last subtraction, where there are chunks. -/
  one_final : finals = if d.remaining = 0 ∧ 0 < b.items.length then 1 else 0

/-- A batch has a chunk if and only if it has an item. -/
theorem Batch.chunks_pos (b : Batch ρ) : 0 < b.chunks.ranges.length ↔ 0 < b.items.length := by
  constructor
  · intro h
    have hlt := b.chunks.start_lt_stop ⟨0, h⟩
    have hle := b.chunks.stop_le ⟨0, h⟩
    omega
  · intro h
    obtain ⟨p, -⟩ := (RangePartition.exists_mem_items (P := b.chunks)).2 h
    exact p.pos

/-- Without a panic, a chunk comes to all its items. -/
theorem Batch.tried_eq_items {b : Batch ρ} (h : ∀ msg, .error msg ∉ b.items)
    (p : Fin b.chunks.ranges.length) : b.tried p = b.chunks.items p := by
  have hall : (b.chunkItems p).takeWhile Except.toBool = b.chunkItems p := by
    refine List.takeWhile_eq_self_iff.2 fun r hr => ?_
    cases r with
    | ok res => rfl
    | error msg => exact absurd (Batch.mem_of_mem_chunkItems hr) (h msg)
  rw [Batch.tried, hall, Batch.length_chunkItems, RangePartition.items,
    List.take_range'_of_length_le (Nat.le_succ _)]

/-- A chunk comes to no item that is not its own, and to none twice. -/
theorem Batch.processedBy_le {b : Batch ρ} {p : Fin b.chunks.ranges.length} {d : BatchInner ρ}
    {w : Option (ChunkWork ρ)} (h : b.ChunkInv p d w) :
    (b.processedBy p w : Multiset ℕ) ≤ (b.chunks.items p : Multiset ℕ) := by
  match w, h with
  | some (.item i chunkRes), ⟨hstart, hstop, _⟩ =>
    have hsub : List.range' (b.chunks.start p) (i - b.chunks.start p) =
        (b.chunks.items p).take (i - b.chunks.start p) := by
      rw [RangePartition.items, List.take_range'_of_length_ge (by omega)]
    show (List.range' _ _ : Multiset ℕ) ≤ _
    rw [hsub]
    exact (List.take_sublist _ _).subperm
  | some (.storing _), _ => exact (List.take_sublist _ _).subperm
  | some .publishing, _ => exact (List.take_sublist _ _).subperm
  | none, _ => exact (List.take_sublist _ _).subperm

/-- The invariant says all that. -/
theorem BatchInv.chunkedMap {b : Batch ρ} {d : BatchInner ρ}
    {f : Fin b.chunks.ranges.length → Option (ChunkWork ρ)} {finals : ℕ} (h : BatchInv b d f)
    (hfinals : finals = if d.remaining = 0 ∧ 0 < b.chunks.ranges.length then 1 else 0) :
    ChunkedMap b d f finals where
  at_most_once i := by
    have hle : (d.processed : Multiset ℕ) ≤ (List.range b.items.length : Multiset ℕ) := by
      rw [h.processed, ← b.chunks.sum_items]
      exact Finset.sum_le_sum fun p _ => Batch.processedBy_le (h.chunk p)
    have hcount := Multiset.count_le_of_le i hle
    rw [Multiset.coe_count, Multiset.coe_count] at hcount
    exact hcount.trans (List.nodup_iff_count_le_one.1 List.nodup_range i)
  exactly_once hno hall i hi := by
    have heq : (d.processed : Multiset ℕ) = (List.range b.items.length : Multiset ℕ) := by
      rw [h.processed, ← b.chunks.sum_items]
      refine Finset.sum_congr rfl fun p _ => ?_
      rw [hall p]
      exact congrArg _ (Batch.tried_eq_items hno p)
    have hcount := congrArg (Multiset.count i) heq
    rw [Multiset.coe_count, Multiset.coe_count] at hcount
    rw [hcount]
    exact List.count_eq_one_of_mem List.nodup_range (List.mem_range.2 hi)
  no_underflow p hp := h.length_le (by rw [hp]; exact Option.some_ne_none _)
  stored p hp := by
    have := h.chunk p
    rcases hp with hp | hp <;> rwa [hp] at this
  zero_iff := h.remaining_eq_zero
  one_final := by simp only [hfinals, b.chunks_pos]

/-- The results of items of which none panicked, or the error of one that did. -/
def NativeOutcome (items : List (Except String Bytes))
    (r : Except (PyErr E) (List (Option Bytes))) : Prop :=
  (∃ values : List Bytes, items = values.map Except.ok ∧ r = .ok (values.map some)) ∨
    ∃ msg, Except.error msg ∈ items ∧ r = .error (.panicInTask msg)

/-- The values of calls of which none panicked or raised, or the exception of the first that raised,
or the error of one that panicked. -/
def CallableOutcome (items : List (CallRes V E)) (r : Except (PyErr E) (List (Option V))) : Prop :=
  (∃ values : List V, items = values.map (fun val => Except.ok (Except.ok val)) ∧
    r = .ok (values.map some)) ∨
  (∃ (i : ℕ) (err : E), items[i]? = some (Except.ok (Except.error err)) ∧
    (∀ j < i, ∃ val, items[j]? = some (Except.ok (Except.ok val))) ∧
    (∀ msg, Except.error msg ∉ items) ∧ r = .error (.raised err)) ∨
  ∃ msg, Except.error msg ∈ items ∧ r = .error (.panicInTask msg)

/-- The list of the results of calls, or the exception of the first that raised. -/
theorem callableList_cases (values : List (Except E V)) :
    (∃ vals : List V, values = vals.map Except.ok ∧
      callableList (values.map some) = .ok (vals.map some)) ∨
    ∃ (i : ℕ) (err : E), values[i]? = some (Except.error err) ∧
      (∀ j < i, ∃ val, values[j]? = some (Except.ok val)) ∧
      callableList (values.map some) = .error (.raised err) := by
  induction values with
  | nil => exact .inl ⟨[], rfl, rfl⟩
  | cons value values ih =>
    cases value with
    | error err => exact .inr ⟨0, err, rfl, fun j hj => absurd hj (Nat.not_lt_zero j), rfl⟩
    | ok val =>
      rcases ih with ⟨vals, rfl, hlist⟩ | ⟨i, err, hi, hbefore, hlist⟩
      · refine .inl ⟨val :: vals, rfl, ?_⟩
        rw [List.map_cons, callableList, hlist]
        rfl
      · refine .inr ⟨i + 1, err, hi, ?_, ?_⟩
        · intro j hj
          cases j with
          | zero => exact ⟨val, rfl⟩
          | succ j => exact hbefore j (by omega)
        · rw [List.map_cons, callableList, hlist]
          rfl

/-- The outcomes of a batch of calls. -/
theorem callableOutcome_of {b : Batch (Except E V)} {r : Except (PyErr E) (List (Option V))}
    (h : BatchOutcome b callableList r) : CallableOutcome b.items r := by
  rcases h with ⟨values, hitems, rfl⟩ | hpanic
  · rw [hitems]
    have hno : ∀ msg : String, (Except.error msg : CallRes V E) ∉ values.map Except.ok := by
      intro msg hmem
      obtain ⟨value, -, hval⟩ := List.mem_map.1 hmem
      cases hval
    rcases callableList_cases values with ⟨vals, rfl, hlist⟩ | ⟨i, err, hi, hbefore, hlist⟩
    · exact .inl ⟨vals, by rw [List.map_map]; rfl, hlist⟩
    · refine .inr (.inl ⟨i, err, ?_, ?_, hno, hlist⟩)
      · rw [List.getElem?_map, hi]
        rfl
      · intro j hj
        obtain ⟨val, hval⟩ := hbefore j hj
        exact ⟨val, by rw [List.getElem?_map, hval]; rfl⟩
  · exact .inr (.inr hpanic)

section
variable [DecidableEq ι] {callable : κ → Callable} {b : Batch ρ} {pending : String}
  {collect : List (Option ρ) → Except (PyErr E) V}
  {c : Config (Completion (BatchInner ρ) κ) (CallbackPc (ChunkWork ρ) κ)
    (Fin b.chunks.ranges.length ⊕ ι)}

/-- A batch in any state that its futures and callers reach. -/
theorem reachable_chunkedMap
    (h : (completionMachine (batchTask b pending collect) callable ι).Reachable anyStep c) :
    ChunkedMap b c.shared.inner (works (T := batchTask b pending collect) c) c.shared.finals := by
  refine BatchInv.chunkedMap (reachable_lawful (batchLawful b pending collect) h) ?_
  rw [reachable_finals (batchLawful b pending collect) h]
  show (if (c.shared.inner.remaining == 0) = true ∧ _ then 1 else 0) = _
  simp only [beq_iff_eq]
  rfl

/-- What `result()` gives once a batch is done. -/
theorem reachable_batchOutcome
    (h : (completionMachine (batchTask b pending collect) callable ι).Reachable anyStep c)
    (hdone : c.shared.inner.remaining = 0) :
    BatchOutcome b collect (batchResult pending collect c.shared.inner) :=
  (batchLawful b pending collect).outcome (reachable_lawful (batchLawful b pending collect) h)
    (beq_iff_eq.2 hdone)

end

/-- The chunks spawned for a batch are not empty and have the items between them, in order. -/
theorem BatchInput.spawned_chunks (x : BatchInput ρ) :
    x.batch.chunks.ranges = spawnedChunks x.active x.items.length ∧
      (∀ r ∈ spawnedChunks x.active x.items.length, r.1 < r.2) ∧
      ((spawnedChunks x.active x.items.length).flatMap fun r => List.range' r.1 (r.2 - r.1)) =
        List.range x.items.length :=
  ⟨rfl, x.batch.chunks.lt, x.batch.chunks.flatten⟩

/-- A chunked batch is the element-wise map: whatever the number of items and of active workers, the
outcomes of the items and the order of the futures, the chunks partition the items, each item is
processed as often as it should be, `remaining` counts the chunks down to zero, and `result()` then
gives the outcomes in order. -/
theorem chunked_batch_eq_map [DecidableEq ι] (callable : κ → Callable) :
    (∀ (x : BatchInput Bytes) (c : Config (Completion (BatchInner Bytes) κ)
        (CallbackPc (ChunkWork Bytes) κ) (Fin x.batch.chunks.ranges.length ⊕ ι)),
      (completionMachine (batchNativeTask (E := E) x.batch) callable ι).Reachable anyStep c →
      x.batch.chunks.ranges = spawnedChunks x.active x.items.length ∧
      (∀ r ∈ spawnedChunks x.active x.items.length, r.1 < r.2) ∧
      ((spawnedChunks x.active x.items.length).flatMap fun r => List.range' r.1 (r.2 - r.1)) =
        List.range x.items.length ∧
      ChunkedMap x.batch c.shared.inner (works (T := batchNativeTask (E := E) x.batch) c)
        c.shared.finals ∧
      (c.shared.inner.remaining = 0 →
        NativeOutcome x.items ((batchNativeTask (E := E) x.batch).result c.shared.inner))) ∧
    ∀ (x : BatchInput (Except E V)) (c : Config (Completion (BatchInner (Except E V)) κ)
        (CallbackPc (ChunkWork (Except E V)) κ) (Fin x.batch.chunks.ranges.length ⊕ ι)),
      (completionMachine (batchCallableTask x.batch) callable ι).Reachable anyStep c →
      x.batch.chunks.ranges = spawnedChunks x.active x.items.length ∧
      (∀ r ∈ spawnedChunks x.active x.items.length, r.1 < r.2) ∧
      ((spawnedChunks x.active x.items.length).flatMap fun r => List.range' r.1 (r.2 - r.1)) =
        List.range x.items.length ∧
      ChunkedMap x.batch c.shared.inner (works (T := batchCallableTask x.batch) c)
        c.shared.finals ∧
      (c.shared.inner.remaining = 0 →
        CallableOutcome x.items ((batchCallableTask x.batch).result c.shared.inner)) := by
  constructor
  · intro x c h
    obtain ⟨hranges, hlt, hflat⟩ := x.spawned_chunks
    exact ⟨hranges, hlt, hflat, reachable_chunkedMap h, fun hdone => reachable_batchOutcome h hdone⟩
  · intro x c h
    obtain ⟨hranges, hlt, hflat⟩ := x.spawned_chunks
    exact ⟨hranges, hlt, hflat, reachable_chunkedMap h,
      fun hdone => callableOutcome_of (reachable_batchOutcome h hdone)⟩

/-! ## Three chunks -/

/-- A batch of pipelines in a pool without an active worker, the third of which panics. -/
def fiveInputs : BatchInput Bytes where
  items := [.ok [5], .ok [6], .error "third", .ok [8], .ok [9]]
  active := 0
  total_lt := by decide
  active_lt := by decide

/-- A batch of calls, the second and the fifth of which raise. -/
def fiveCalls : BatchInput (Except ℕ ℕ) where
  items := [.ok (.ok 5), .ok (.error 6), .ok (.ok 7), .ok (.ok 8), .ok (.error 9)]
  active := 0
  total_lt := by decide
  active_lt := by decide

/-- A callable that takes no arguments. -/
def takesNone : Callable where
  call0 := ⟨true, .ok ()⟩
  call1 := ⟨false, .error ⟨true, fun _ => false⟩⟩

/-- The caller registers a callback; the first chunk is interrupted by the other two, of which the
second takes `steps` steps, and publishes last. -/
def threeChunksRun (n steps : ℕ) : List ((Fin n ⊕ Unit) × CallbackAct Unit) :=
  (.inr (), .register ()) ::
    (List.replicate 6 3 ++ List.replicate 3 0 ++ List.replicate steps 1 ++ List.replicate 4 2 ++
      List.replicate 7 0).map fun k => (chunkThread n k, .go)

/-- The batch of pipelines is done, and the callback has been called. -/
theorem fiveInputs_done :
    ((completionMachine (batchNativeTask (E := ℕ) fiveInputs.batch) (fun _ => takesNone) Unit).run
      (newTask _ Unit Unit) (threeChunksRun _ 3)).map
        (fun c => (BatchInner.remaining c.shared.inner, c.shared.called)) = some (0, [()]) := by
  decide +kernel

/-- The batch of calls as well. -/
theorem fiveCalls_done :
    ((completionMachine (batchCallableTask fiveCalls.batch) (fun _ => takesNone) Unit).run
      (newTask _ Unit Unit) (threeChunksRun _ 5)).map
        (fun c => (BatchInner.remaining c.shared.inner, c.shared.called)) = some (0, [()]) := by
  decide +kernel

/-- The one outcome of the batch of pipelines. -/
theorem fiveInputs_outcome {r : Except (PyErr E) (List (Option Bytes))}
    (h : NativeOutcome fiveInputs.items r) : r = .error (.panicInTask "third") := by
  rcases h with ⟨values, hitems, -⟩ | ⟨msg, hmsg, rfl⟩
  · have hthird : .error "third" ∈ values.map (Except.ok (ε := String)) := by
      simp [← hitems, fiveInputs]
    simp at hthird
  · have hmsg : msg = "third" := by simpa [fiveInputs] using hmsg
    rw [hmsg]

/-- The one outcome of the batch of calls is the exception with the smallest index. -/
theorem fiveCalls_outcome {r : Except (PyErr ℕ) (List (Option ℕ))}
    (h : CallableOutcome fiveCalls.items r) : r = .error (.raised 6) := by
  have hsecond : fiveCalls.items[1]? = some (.ok (.error 6)) := rfl
  rcases h with ⟨values, hitems, -⟩ | ⟨i, err, hi, hbefore, -, rfl⟩ | ⟨msg, hmsg, -⟩
  · rw [hitems] at hsecond
    simp at hsecond
  · rcases lt_trichotomy i 1 with hlt | rfl | hgt
    · obtain rfl : i = 0 := by omega
      cases hi
    · cases hi
      rfl
    · obtain ⟨val, hval⟩ := hbefore 1 hgt
      rw [hsecond] at hval
      cases hval
  · simp [fiveCalls] at hmsg

/-- So both have three chunks and that result, no pipeline has been run twice, and each call has
been made once. -/
theorem chunked_batch_eq_map_five :
    spawnedChunks 0 5 = [(0, 2), (2, 4), (4, 5)] ∧
    (∃ c, (completionMachine (batchNativeTask (E := ℕ) fiveInputs.batch)
        (fun _ => takesNone) Unit).run (newTask _ Unit Unit) (threeChunksRun _ 3) = some c ∧
      c.shared.finals = 1 ∧ (∀ i, (BatchInner.processed c.shared.inner).count i ≤ 1) ∧
      (batchNativeTask (E := ℕ) fiveInputs.batch).result c.shared.inner =
        .error (.panicInTask "third")) ∧
    ∃ c, (completionMachine (batchCallableTask fiveCalls.batch)
        (fun _ => takesNone) Unit).run (newTask _ Unit Unit) (threeChunksRun _ 5) = some c ∧
      c.shared.finals = 1 ∧ (∀ i < 5, (BatchInner.processed c.shared.inner).count i = 1) ∧
      (batchCallableTask fiveCalls.batch).result c.shared.inner = .error (.raised 6) := by
  obtain ⟨hnative, hcalls⟩ := chunked_batch_eq_map (V := ℕ) (E := ℕ) (ι := Unit) fun _ => takesNone
  refine ⟨by decide +kernel, ?_, ?_⟩
  · obtain ⟨c, hrun, hc⟩ := Option.map_eq_some_iff.1 fiveInputs_done
    obtain ⟨-, -, -, hmap, hres⟩ := hnative fiveInputs c (Machine.reach_of_run _ hrun)
    have hzero : BatchInner.remaining c.shared.inner = 0 := congrArg Prod.fst hc
    exact ⟨c, hrun, hmap.one_final.trans (if_pos ⟨hzero, by decide⟩), hmap.at_most_once,
      fiveInputs_outcome (hres hzero)⟩
  · obtain ⟨c, hrun, hc⟩ := Option.map_eq_some_iff.1 fiveCalls_done
    obtain ⟨-, -, -, hmap, hres⟩ := hcalls fiveCalls c (Machine.reach_of_run _ hrun)
    have hzero : BatchInner.remaining c.shared.inner = 0 := congrArg Prod.fst hc
    have hno : ∀ msg, .error msg ∉ fiveCalls.items := by simp [fiveCalls]
    exact ⟨c, hrun, hmap.one_final.trans (if_pos ⟨hzero, by decide⟩),
      hmap.exactly_once hno (hmap.zero_iff.1 hzero), fiveCalls_outcome (hres hzero)⟩

end Hypertile
