import Hypertile.CApi.Batch

/-!
# The batch call is a parallel map with a barrier

The counter is the number of tasks that have not subtracted (`CapiInv.remaining`), and a caller that
is parked on a counter of zero has a token or a task that is about to give it one
(`CapiInv.parked`). A task that has subtracted has written the results of its chunk, so a call that
returns has all of them (`batch_spawn_barrier`).
-/

namespace Hypertile

open Machine Machine.Threads

variable {b : CapiBatch}

/-! ## The steps -/

/-- `CapiTrans b s t m s' m'`: thread `t` at `m` can take a step from `s`, to `s'` and `m'`. -/
inductive CapiTrans (b : CapiBatch) (s : CapiShared) :
    Fin b.chunks.ranges.length ⊕ Unit → CapiPc → CapiShared → CapiPc → Prop
  | call {p : Fin b.chunks.ranges.length} {i : ℕ} {res : Ptr} (hi : i < b.chunks.stop p)
      (hres : b.items[i]? = some (some res)) :
      CapiTrans b s (.inl p) (.item i) { s with called := i :: s.called } (.write i res)
  | callPanics {p : Fin b.chunks.ranges.length} {i : ℕ} (hi : i < b.chunks.stop p)
      (hres : b.items[i]? = some none) :
      CapiTrans b s (.inl p) (.item i) { s with called := i :: s.called } (.panicked i)
  | loopEnds {p : Fin b.chunks.ranges.length} {i : ℕ} (hi : ¬i < b.chunks.stop p) :
      CapiTrans b s (.inl p) (.item i) s .subtract
  | flag {p : Fin b.chunks.ranges.length} {i : ℕ} :
      CapiTrans b s (.inl p) (.panicked i) { s with hadPanic := true } (.write i 0)
  | write {p : Fin b.chunks.ranges.length} {i : ℕ} {res : Ptr} :
      CapiTrans b s (.inl p) (.write i res) { s with outResults := s.outResults.set i res }
        (.item (i + 1))
  | subtractLast {p : Fin b.chunks.ranges.length} (hlast : s.remaining = 1) :
      CapiTrans b s (.inl p) .subtract { s with remaining := wordSub s.remaining 1 } .unpark
  | subtract {p : Fin b.chunks.ranges.length} (hlast : s.remaining ≠ 1) :
      CapiTrans b s (.inl p) .subtract { s with remaining := wordSub s.remaining 1 } .finished
  | unpark {p : Fin b.chunks.ranges.length} :
      CapiTrans b s (.inl p) .unpark { s with token := true } .finished
  | spawn {u : Unit} :
      CapiTrans b s (.inr u) .spawning { s with spawned := s.spawned + 1 } .spawning
  | spawned {u : Unit} : CapiTrans b s (.inr u) .spawning s .check
  | checkPark {u : Unit} (hpos : 0 < s.remaining) : CapiTrans b s (.inr u) .check s .park
  | checkDone {u : Unit} (hzero : s.remaining = 0) : CapiTrans b s (.inr u) .check s .status
  | park {u : Unit} : CapiTrans b s (.inr u) .park { s with token := false } .check
  | return {u : Unit} : CapiTrans b s (.inr u) .status s
      (.returned (if s.hadPanic then .errPanic else .ok))

/-- What a step can do. -/
theorem capiStep_trans {t : Fin b.chunks.ranges.length ⊕ Unit} {s s' : CapiShared} {m m' : CapiPc}
    {a : Unit} (h : capiStep b t s m a = some (s', m')) : CapiTrans b s t m s' m' := by
  cases t with
  | inl p =>
    simp only [capiStep] at h
    split at h
    · cases m with
      | item i =>
        simp only [capiTaskStep] at h
        split at h
        · next hi =>
          split at h
          · next res hres => cases h; exact .call hi hres
          · next hres => cases h; exact .callPanics hi hres
          · cases h
        · next hi => cases h; exact .loopEnds hi
      | panicked i => cases h; exact .flag
      | write i res => cases h; exact .write
      | subtract =>
        simp only [capiTaskStep, Option.some.injEq, Prod.mk.injEq] at h
        obtain ⟨rfl, rfl⟩ := h
        split
        · next hlast => exact .subtractLast hlast
        · next hlast => exact .subtract hlast
      | unpark => cases h; exact .unpark
      | _ => cases h
    · cases h
  | inr u =>
    simp only [capiStep] at h
    cases m with
    | spawning =>
      simp only [capiCallerStep] at h
      split at h
      · cases h; exact .spawn
      · cases h; exact .spawned
    | check =>
      simp only [capiCallerStep, Option.some.injEq, Prod.mk.injEq] at h
      obtain ⟨rfl, rfl⟩ := h
      split
      · next hpos => exact .checkPark hpos
      · next hzero => exact .checkDone (Nat.eq_zero_of_not_pos hzero)
    | park =>
      simp only [capiCallerStep] at h
      split at h
      · cases h; exact .park
      · cases h
    | status => cases h; exact .return
    | _ => cases h

/-! ## What a thread has done -/

/-- What is written for an item: the pointer that the work function returns, or `NULL`. -/
def CapiBatch.value (b : CapiBatch) (i : ℕ) : Ptr := (b.items[i]?.join).getD 0

/-- The results of the items of a chunk below `i` have been written, and their panics flagged. -/
def CapiShared.Written (b : CapiBatch) (p : Fin b.chunks.ranges.length) (s : CapiShared)
    (i : ℕ) : Prop :=
  ∀ j, b.chunks.start p ≤ j → j < i →
    s.outResults[j]? = some (b.value j) ∧ (b.items[j]? = some none → s.hadPanic = true)

/-- The caller has returned the status that the panic flag gives. -/
def CapiShared.Answered (s : CapiShared) (res : HypertileStatus) : Prop :=
  s.remaining = 0 ∧ res = if s.hadPanic then .errPanic else .ok

/-- What the place of a thread says. -/
def CapiShared.Place (b : CapiBatch) (s : CapiShared) :
    Fin b.chunks.ranges.length ⊕ Unit → CapiPc → Prop
  | .inl p, .item i => b.chunks.start p ≤ i ∧ i ≤ b.chunks.stop p ∧ s.Written b p i
  | .inl p, .panicked i => b.chunks.start p ≤ i ∧ i < b.chunks.stop p ∧
      b.items[i]? = some none ∧ s.Written b p i
  | .inl p, .write i res => b.chunks.start p ≤ i ∧ i < b.chunks.stop p ∧ res = b.value i ∧
      (b.items[i]? = some none → s.hadPanic = true) ∧ s.Written b p i
  | .inl p, .subtract | .inl p, .unpark | .inl p, .finished => s.Written b p (b.chunks.stop p)
  | .inl _, _ => False
  | .inr _, .spawning | .inr _, .check | .inr _, .park => True
  | .inr _, .status => s.remaining = 0
  | .inr _, .returned res => s.Answered res
  | .inr _, _ => False

/-- What a thread still has to subtract. -/
def capiOwes : Fin b.chunks.ranges.length ⊕ Unit → CapiPc → ℕ
  | .inl _, .unpark | .inl _, .finished => 0
  | .inl _, _ => 1
  | .inr _, _ => 0

/-- The items that a thread has called the work function on. -/
def capiCalled : Fin b.chunks.ranges.length ⊕ Unit → CapiPc → List ℕ
  | .inl p, .item i => List.range' (b.chunks.start p) (i - b.chunks.start p)
  | .inl p, .panicked i | .inl p, .write i _ =>
    List.range' (b.chunks.start p) (i + 1 - b.chunks.start p)
  | .inl p, _ => b.chunks.items p
  | .inr _, _ => []

/-- The thread is about to unpark the caller. -/
def CapiPc.unparks : CapiPc → Bool
  | .unpark => true
  | _ => false

/-- The invariant of a batch call whose threads stand at `f`. -/
structure CapiInv (b : CapiBatch) (s : CapiShared)
    (f : Fin b.chunks.ranges.length ⊕ Unit → CapiPc) : Prop where
  length : s.outResults.length = b.items.length
  place : ∀ t, s.Place b t (f t)
  remaining : s.remaining = ∑ t, capiOwes t (f t)
  called : (s.called : Multiset ℕ) = ∑ t, (capiCalled t (f t) : Multiset ℕ)
  panic : s.hadPanic = true → none ∈ b.items
  parked : s.remaining = 0 → f (.inr ()) = .park →
    s.token = true ∨ ∃ t, (f t).unparks = true

section
variable {s s' : CapiShared} {t q : Fin b.chunks.ranges.length ⊕ Unit} {m m' n : CapiPc}
  {p : Fin b.chunks.ranges.length} {i : ℕ}

/-- What has been written and flagged for a chunk stays so under a step that keeps its results and a
raised flag. -/
theorem CapiShared.Written.mono (h : s.Written b p i)
    (hout : ∀ j ∈ b.chunks.items p, s'.outResults[j]? = s.outResults[j]?)
    (hpanic : s.hadPanic = true → s'.hadPanic = true) (hi : i ≤ b.chunks.stop p) :
    s'.Written b p i := by
  intro j hstart hj
  obtain ⟨hres, hflag⟩ := h j hstart hj
  rw [hout j (RangePartition.mem_items.2 ⟨hstart, by omega⟩)]
  exact ⟨hres, fun hnone => hpanic (hflag hnone)⟩

/-- A step keeps what the place of the moving thread says. -/
theorem CapiTrans.place (h : CapiTrans b s t m s' m')
    (hlen : s.outResults.length = b.items.length) (hm : s.Place b t m) : s'.Place b t m' := by
  cases h with
  | @call p i res hi hres =>
    obtain ⟨hstart, -, hw⟩ := hm
    refine ⟨hstart, hi, ?_, fun hnone => ?_, hw⟩
    · rw [CapiBatch.value, hres]
      rfl
    · rw [hres] at hnone
      cases hnone
  | callPanics hi hres =>
    obtain ⟨hstart, -, hw⟩ := hm
    exact ⟨hstart, hi, hres, hw⟩
  | loopEnds hi =>
    obtain ⟨-, hstop, hw⟩ := hm
    rwa [Nat.le_antisymm hstop (Nat.le_of_not_lt hi)] at hw
  | @flag p i =>
    obtain ⟨hstart, hi, hres, hw⟩ := hm
    refine ⟨hstart, hi, ?_, fun _ => rfl, hw.mono (fun _ _ => rfl) (fun _ => rfl) hi.le⟩
    rw [CapiBatch.value, hres]
    rfl
  | @write p i res =>
    obtain ⟨hstart, hi, hres, hflag, hw⟩ := hm
    have hstop := b.chunks.stop_le p
    refine ⟨by omega, hi, fun j hj hji => ?_⟩
    rcases Nat.lt_or_ge j i with hlt | hge
    · obtain ⟨hval, hjflag⟩ := hw j hj hlt
      refine ⟨?_, hjflag⟩
      rw [List.getElem?_set_ne (by omega)]
      exact hval
    · obtain rfl : j = i := by omega
      refine ⟨?_, hflag⟩
      rw [List.getElem?_set_self (by omega), hres]
  | @subtractLast p hlast =>
    exact CapiShared.Written.mono (s := s) hm (fun _ _ => rfl) id le_rfl
  | @subtract p hlast =>
    exact CapiShared.Written.mono (s := s) hm (fun _ _ => rfl) id le_rfl
  | @unpark p => exact CapiShared.Written.mono (s := s) hm (fun _ _ => rfl) id le_rfl
  | spawn | spawned | checkPark | park => trivial
  | checkDone hzero => exact hzero
  | «return» => exact ⟨hm, rfl⟩

/-- A step leaves the results of the other chunks as they are, and the flag raised. -/
theorem CapiTrans.frame (h : CapiTrans b s t m s' m') (hm : s.Place b t m) :
    (s.hadPanic = true → s'.hadPanic = true) ∧
      ∀ q, .inl q ≠ t → ∀ j ∈ b.chunks.items q, s'.outResults[j]? = s.outResults[j]? := by
  cases h with
  | flag => exact ⟨fun _ => rfl, fun _ _ _ _ => rfl⟩
  | @write p i res =>
    obtain ⟨hstart, hi, -⟩ := hm
    refine ⟨id, fun q hq j hj => ?_⟩
    have hij : i ≠ j := by
      rintro rfl
      exact hq (congrArg _ (RangePartition.eq_of_mem_items hj
        (RangePartition.mem_items.2 ⟨hstart, hi⟩)))
    rw [List.getElem?_set_ne hij]
  | _ => exact ⟨id, fun _ _ _ _ => rfl⟩

/-- A caller that has seen the counter at zero does so still after a step of a task. -/
theorem CapiTrans.answered (h : CapiTrans b s (.inl p) m s' m')
    (hpos : 0 < capiOwes (.inl p : Fin b.chunks.ranges.length ⊕ Unit) m → 0 < s.remaining)
    (hzero : s.remaining = 0) : s'.remaining = 0 ∧ s'.hadPanic = s.hadPanic := by
  have hno : ¬0 < capiOwes (.inl p : Fin b.chunks.ranges.length ⊕ Unit) m := by
    intro howes
    have := hpos howes
    omega
  cases h with
  | unpark => exact ⟨hzero, rfl⟩
  | _ => exact absurd Nat.one_pos hno

/-- A step keeps what the places of the other threads say. -/
theorem CapiTrans.place_other (h : CapiTrans b s t m s' m') (hm : s.Place b t m)
    (hpos : 0 < capiOwes t m → 0 < s.remaining) (hqt : q ≠ t) (hn : s.Place b q n) :
    s'.Place b q n := by
  cases q with
  | inl q =>
    obtain ⟨hpanic, hout⟩ := h.frame hm
    have hkeep := hout q hqt
    match n, hn with
    | .item i, ⟨hstart, hi, hw⟩ => exact ⟨hstart, hi, hw.mono hkeep hpanic hi⟩
    | .panicked i, ⟨hstart, hi, hres, hw⟩ =>
      exact ⟨hstart, hi, hres, hw.mono hkeep hpanic hi.le⟩
    | .write i res, ⟨hstart, hi, hres, hflag, hw⟩ =>
      exact ⟨hstart, hi, hres, fun hnone => hpanic (hflag hnone), hw.mono hkeep hpanic hi.le⟩
    | .subtract, hw => exact CapiShared.Written.mono (s := s) hw hkeep hpanic le_rfl
    | .unpark, hw => exact CapiShared.Written.mono (s := s) hw hkeep hpanic le_rfl
    | .finished, hw => exact CapiShared.Written.mono (s := s) hw hkeep hpanic le_rfl
  | inr u =>
    cases t with
    | inr v => exact absurd rfl hqt
    | inl p =>
      match n, hn with
      | .spawning, _ | .check, _ | .park, _ => trivial
      | .status, hzero => exact (h.answered hpos hzero).1
      | .returned res, ⟨hzero, hres⟩ =>
        obtain ⟨hzero', hflag⟩ := h.answered hpos hzero
        exact ⟨hzero', by rw [hflag]; exact hres⟩

/-- What a step adds to the record, the thread has called. -/
theorem CapiTrans.called (h : CapiTrans b s t m s' m') (hm : s.Place b t m) :
    (s'.called : Multiset ℕ) + (capiCalled t m : Multiset ℕ) =
      (s.called : Multiset ℕ) + (capiCalled t m' : Multiset ℕ) := by
  have hcall : ∀ {p : Fin b.chunks.ranges.length} {i : ℕ}, b.chunks.start p ≤ i →
      ((i :: s.called : List ℕ) : Multiset ℕ) +
          (List.range' (b.chunks.start p) (i - b.chunks.start p) : Multiset ℕ) =
        (s.called : Multiset ℕ) +
          (List.range' (b.chunks.start p) (i + 1 - b.chunks.start p) : Multiset ℕ) := by
    intro p i hstart
    have hidx : i + 1 - b.chunks.start p = i - b.chunks.start p + 1 := by omega
    have hlast : b.chunks.start p + (i - b.chunks.start p) = i := by omega
    rw [hidx, List.range'_1_concat, hlast, Multiset.coe_add, Multiset.coe_add,
      Multiset.coe_eq_coe, ← List.append_assoc]
    exact (List.perm_append_singleton _ _).symm
  cases h with
  | call | callPanics =>
    obtain ⟨hstart, -, -⟩ := hm
    exact hcall hstart
  | loopEnds hi =>
    obtain ⟨-, hstop, -⟩ := hm
    rw [capiCalled, Nat.le_antisymm hstop (Nat.le_of_not_lt hi)]
    rfl
  | _ => rfl

end

/-! ## The invariant -/

namespace CapiInv

variable {s s' : CapiShared} {f : Fin b.chunks.ranges.length ⊕ Unit → CapiPc}
  {t : Fin b.chunks.ranges.length ⊕ Unit} {m' : CapiPc}

/-- It holds of a call that has spawned nothing yet. -/
theorem init (b : CapiBatch) : CapiInv b (capiStart b).shared (capiStart b).loc where
  length := b.out_length
  place t := by
    cases t with
    | inl p => exact ⟨le_rfl, (b.chunks.start_lt_stop p).le, fun j hj hlt => by omega⟩
    | inr u => trivial
  remaining := by
    rw [Fintype.sum_sum_type]
    simp [capiStart, capiOwes]
  called := by
    rw [Fintype.sum_sum_type]
    simp [capiStart, capiCalled]
  panic h := by cases h
  parked h hpark := by cases hpark

/-- A task that has not subtracted is counted. -/
theorem remaining_pos (h : CapiInv b s f) (ht : 0 < capiOwes t (f t)) : 0 < s.remaining :=
  ht.trans_le (le_of_eq_sum h.remaining t)

/-- The counter is a machine word. -/
theorem remaining_lt (h : CapiInv b s f) : s.remaining < wordSize := by
  refine lt_of_le_of_lt ?_ b.total_lt
  calc s.remaining = ∑ p, capiOwes (.inl p) (f (.inl p)) := by
        rw [h.remaining, Fintype.sum_sum_type]
        simp [capiOwes]
    _ ≤ ∑ _p : Fin b.chunks.ranges.length, 1 := by
        refine Finset.sum_le_sum fun p _ => ?_
        unfold capiOwes
        split <;> omega
    _ = b.chunks.ranges.length := by simp
    _ ≤ b.items.length := b.chunks.length_le

/-- The subtraction of a task does not wrap. -/
theorem fetch_sub (h : CapiInv b s f) (ht : 0 < capiOwes t (f t)) :
    wordSub s.remaining 1 = s.remaining - 1 :=
  wordSub_eq (h.remaining_pos ht) h.remaining_lt

/-- A step keeps the count of the tasks that have not subtracted. -/
theorem remaining_step (h : CapiInv b s f) (ht : CapiTrans b s t (f t) s' m') :
    s'.remaining = ∑ q, capiOwes q (Function.update f t m' q) := by
  refine eq_sum_update h.remaining ?_
  have hpos := h.remaining_pos (t := t)
  have hsub := h.fetch_sub (t := t)
  generalize f t = m at ht hpos hsub ⊢
  cases ht with
  | subtractLast | subtract =>
    have hone := hpos Nat.one_pos
    show wordSub s.remaining 1 + 1 = s.remaining + 0
    rw [hsub Nat.one_pos]
    omega
  | _ => rfl

/-- A parked caller keeps its token, or a task that will unpark it. -/
theorem parked_step (h : CapiInv b s f) (ht : CapiTrans b s t (f t) s' m')
    (hzero : s'.remaining = 0) (hpark : Function.update f t m' (.inr ()) = .park) :
    s'.token = true ∨ ∃ q, (Function.update f t m' q).unparks = true := by
  rw [exists_update]
  have hold := fun hz hp => (h.parked hz hp).imp id (exists_split (p := CapiPc.unparks) t).1
  have hpos := h.remaining_pos (t := t)
  have hsub := h.fetch_sub (t := t)
  generalize f t = m at ht hold hpos hsub
  cases ht with
  | subtractLast => exact .inr (.inl rfl)
  | subtract hlast =>
    have hone := hpos Nat.one_pos
    have hz : wordSub s.remaining 1 = 0 := hzero
    rw [hsub Nat.one_pos] at hz
    omega
  | unpark => exact .inl rfl
  | checkPark hpos' => exact absurd hzero hpos'.ne'
  | spawn | spawned | checkDone | park | «return» =>
    rw [Function.update_self] at hpark
    cases hpark
  | _ =>
    rw [Function.update_of_ne (by simp)] at hpark
    simpa [CapiPc.unparks] using hold hzero hpark

/-- A step keeps the invariant. -/
theorem step (h : CapiInv b s f) (ht : CapiTrans b s t (f t) s' m') :
    CapiInv b s' (Function.update f t m') where
  length := by
    have hlen := h.length
    generalize f t = m at ht
    cases ht with
    | write => simpa using hlen
    | _ => exact hlen
  place q := by
    by_cases hq : q = t
    · subst hq
      rw [Function.update_self]
      exact ht.place h.length (h.place q)
    · rw [Function.update_of_ne hq]
      exact ht.place_other (h.place t) h.remaining_pos hq (h.place q)
  remaining := h.remaining_step ht
  called := eq_sum_update (g := fun q m => (capiCalled q m : Multiset ℕ)) h.called
    (ht.called (h.place t))
  panic := by
    intro hflag
    have hplace := h.place t
    generalize f t = m at ht hplace
    cases ht with
    | flag =>
      obtain ⟨-, -, hres, -⟩ := hplace
      exact List.mem_of_getElem? hres
    | _ => exact h.panic hflag
  parked := h.parked_step ht

end CapiInv

/-- It holds in every state that the call and its tasks reach. -/
theorem reachable_capiInv {c : Config CapiShared CapiPc (Fin b.chunks.ranges.length ⊕ Unit)}
    (h : (capiMachine b).Reachable anyStep c) : CapiInv b c.shared c.loc := by
  refine h.invariant (I := fun c => CapiInv b c.shared c.loc) (CapiInv.init b) ?_
  rintro c ⟨t, a⟩ c' hI - hst
  obtain ⟨s', m', hp, rfl⟩ := step_iff.1 hst
  exact hI.step (capiStep_trans hp)

/-! ## The batch call -/

namespace CapiInv

variable {s : CapiShared} {f : Fin b.chunks.ranges.length ⊕ Unit → CapiPc}

/-- No item is handed to the work function twice. -/
theorem called_le_one (h : CapiInv b s f) (i : ℕ) : s.called.count i ≤ 1 := by
  have hle : (s.called : Multiset ℕ) ≤ (List.range b.items.length : Multiset ℕ) := by
    rw [h.called, Fintype.sum_sum_type, ← b.chunks.sum_items]
    simp only [capiCalled, Multiset.coe_nil, Finset.sum_const_zero, add_zero]
    refine Finset.sum_le_sum fun p _ => ?_
    have hplace := h.place (.inl p)
    have hsub : ∀ k ≤ b.chunks.stop p - b.chunks.start p,
        (List.range' (b.chunks.start p) k : Multiset ℕ) ≤ (b.chunks.items p : Multiset ℕ) := by
      intro k hk
      rw [← List.take_range'_of_length_ge hk]
      exact (List.take_sublist _ _).subperm
    match f (.inl p), hplace with
    | .item i, ⟨hstart, hstop, _⟩ => exact hsub _ (by omega)
    | .panicked i, ⟨hstart, hstop, _⟩ => exact hsub _ (by omega)
    | .write i res, ⟨hstart, hstop, _⟩ => exact hsub _ (by omega)
    | .subtract, _ | .unpark, _ | .finished, _ => exact le_rfl
  have hcount := Multiset.count_le_of_le i hle
  rw [Multiset.coe_count, Multiset.coe_count] at hcount
  exact hcount.trans (List.nodup_iff_count_le_one.1 List.nodup_range i)

/-- A task that has subtracted has called the work function on its chunk and written the results. -/
theorem of_owes_eq_zero (h : CapiInv b s f) {p : Fin b.chunks.ranges.length}
    (hp : capiOwes (.inl p : Fin b.chunks.ranges.length ⊕ Unit) (f (.inl p)) = 0) :
    capiCalled (.inl p) (f (.inl p)) = b.chunks.items p ∧ s.Written b p (b.chunks.stop p) := by
  have hplace := h.place (.inl p)
  match f (.inl p), hplace, hp with
  | .unpark, hw, _ => exact ⟨rfl, hw⟩
  | .finished, hw, _ => exact ⟨rfl, hw⟩

/-- Once the counter is zero, the work function has been called on each item, each result is
written, and the flag tells whether an item has panicked. -/
theorem of_remaining_eq_zero (h : CapiInv b s f) (hzero : s.remaining = 0) :
    (∀ i < b.items.length, s.called.count i = 1) ∧
      (∀ i < b.items.length, s.outResults[i]? = some (b.value i)) ∧
      (s.hadPanic = true ↔ none ∈ b.items) := by
  have howes : ∀ t, capiOwes t (f t) = 0 := by
    intro t
    have hsum := h.remaining
    rw [hzero, eq_comm, Finset.sum_eq_zero_iff] at hsum
    exact hsum t (Finset.mem_univ t)
  have hwritten := fun p => (h.of_owes_eq_zero (howes (.inl p))).2
  refine ⟨fun i hi => ?_, fun i hi => ?_, h.panic, fun hnone => ?_⟩
  · have heq : (s.called : Multiset ℕ) = (List.range b.items.length : Multiset ℕ) := by
      rw [h.called, Fintype.sum_sum_type, ← b.chunks.sum_items]
      simp only [capiCalled, Multiset.coe_nil, Finset.sum_const_zero, add_zero]
      exact Finset.sum_congr rfl fun p _ =>
        congrArg _ (h.of_owes_eq_zero (howes (.inl p))).1
    have hcount := congrArg (Multiset.count i) heq
    rw [Multiset.coe_count, Multiset.coe_count] at hcount
    rw [hcount]
    exact List.count_eq_one_of_mem List.nodup_range (List.mem_range.2 hi)
  · obtain ⟨p, hp⟩ := (RangePartition.exists_mem_items (P := b.chunks)).2 hi
    obtain ⟨hstart, hstop⟩ := RangePartition.mem_items.1 hp
    exact (hwritten p i hstart hstop).1
  · obtain ⟨i, hi⟩ := List.getElem?_of_mem hnone
    have hlt := (List.getElem?_eq_some_iff.1 hi).1
    obtain ⟨p, hp⟩ := (RangePartition.exists_mem_items (P := b.chunks)).2 hlt
    obtain ⟨hstart, hstop⟩ := RangePartition.mem_items.1 hp
    exact (hwritten p i hstart hstop).2 hi

/-- A caller that is parked after all tasks have finished has a token. -/
theorem token_of_finished (h : CapiInv b s f) (hall : ∀ p, f (.inl p) = .finished)
    (hpark : f (.inr ()) = .park) : s.token = true := by
  have hzero : s.remaining = 0 := by
    rw [h.remaining, Fintype.sum_sum_type]
    simp [hall, capiOwes]
  refine (h.parked hzero hpark).resolve_right ?_
  rintro ⟨p | u, ht⟩
  · rw [hall p] at ht
    cases ht
  · rw [hpark] at ht
    cases ht

end CapiInv

/-- The batch call is a parallel map with a barrier: its chunks are a partition of the items into
non-empty ranges, computed without overflow, and counted by `actual_chunks`; the work function is
called at most once for an item, and when the call returns it has been called once for each and each
result is written; the call returns `ErrPanic` if and only if an item panicked, and `Ok` otherwise;
and once all tasks have finished, a caller that is parked has a token. -/
theorem batch_spawn_barrier (x : CapiInput)
    {c : Config CapiShared CapiPc (Fin x.batch.chunks.ranges.length ⊕ Unit)}
    (h : (capiMachine x.batch).Reachable anyStep c) :
    (x.batch.chunks.ranges = capiChunks x.active x.items.length ∧
      x.batch.chunks.ranges.length = actualChunks x.active x.items.length ∧
      (∀ r ∈ capiChunks x.active x.items.length, r.1 < r.2) ∧
      ((capiChunks x.active x.items.length).flatMap fun r => List.range' r.1 (r.2 - r.1)) =
        List.range x.items.length ∧
      max x.active 1 * 4 < wordSize ∧
      ∀ k < actualChunks x.active x.items.length,
        k * chunkSize x.active x.items.length + chunkSize x.active x.items.length < wordSize) ∧
    (∀ i, c.shared.called.count i ≤ 1) ∧
    (∀ res, c.loc (.inr ()) = .returned res →
      (∀ i < x.items.length, c.shared.called.count i = 1) ∧
      (∀ i < x.items.length, c.shared.outResults[i]? = some (x.batch.value i)) ∧
      (res = .errPanic ↔ none ∈ x.items) ∧ (none ∉ x.items → res = .ok)) ∧
    ((∀ p, c.loc (.inl p) = .finished) → c.loc (.inr ()) = .park → c.shared.token = true) := by
  have hI := reachable_capiInv h
  refine ⟨⟨rfl, ?_, (x.size.capi x.items_pos).lt, (x.size.capi x.items_pos).flatten, ?_, ?_⟩,
    hI.called_le_one, ?_, hI.token_of_finished⟩
  · show (capiChunks x.active x.items.length).length = _
    rw [capiChunks, List.length_map, List.length_range]
  · exact (x.size.no_overflow x.items_pos (numChunks_pos _ _)).1
  · intro k hk
    exact (x.size.no_overflow x.items_pos (hk.trans_le (actualChunks_le x.items_pos))).2
  · intro res hres
    have hplace := hI.place (.inr ())
    rw [hres] at hplace
    obtain ⟨hzero, hanswer⟩ := hplace
    obtain ⟨hcalled, hout, hflag⟩ := hI.of_remaining_eq_zero hzero
    refine ⟨hcalled, hout, ?_, fun hno => ?_⟩
    · rw [hanswer]
      show _ ↔ none ∈ x.batch.items
      rw [← hflag]
      cases c.shared.hadPanic <;> simp
    · have hfalse : c.shared.hadPanic = false :=
        Bool.eq_false_iff.2 fun hp => hno (hflag.1 hp)
      rw [hanswer, hfalse]
      rfl

/-- A batch call with five items, on the fourth of which the work function panics, in a pool with
one active worker. -/
def fiveItems : CapiInput where
  items := [some 5, some 6, some 7, none, some 9]
  active := 1
  out := [1, 1, 1, 1, 1]
  out_length := rfl
  items_pos := by decide
  items_fit := by decide
  active_lt := by decide

/-- The tasks of the first two chunks run at the same time, before the caller has spawned the third
one; the task with the panic is the last to subtract, and unparks the caller. -/
def fiveItemsRun : List ((Fin fiveItems.batch.chunks.ranges.length ⊕ Unit) × Unit) :=
  ([3, 3] ++ (List.replicate 5 [0, 1]).flatten ++ [3, 3, 3, 0] ++ List.replicate 4 2 ++
    List.replicate 3 1 ++ List.replicate 3 3).map fun k => (chunkThread _ k, ())

/-- After that run the call has returned with the panic. -/
theorem fiveItemsRun_returned :
    ((capiMachine fiveItems.batch).run (capiStart fiveItems.batch) fiveItemsRun).map
      (fun c => c.loc (.inr ())) = some (.returned .errPanic) := by
  decide +kernel

/-- And each item of its three chunks has been called once and has its result. -/
theorem batch_spawn_barrier_five :
    fiveItems.batch.chunks.ranges = [(0, 2), (2, 4), (4, 5)] ∧
    ∃ c, (capiMachine fiveItems.batch).run (capiStart fiveItems.batch) fiveItemsRun = some c ∧
      c.loc (.inr ()) = .returned .errPanic ∧ none ∈ fiveItems.items ∧
      (∀ i < fiveItems.items.length, c.shared.called.count i = 1) ∧
      ∀ i < fiveItems.items.length, c.shared.outResults[i]? = some (fiveItems.batch.value i) := by
  obtain ⟨c, hrun, hres⟩ := Option.map_eq_some_iff.1 fiveItemsRun_returned
  obtain ⟨hcalled, hout, hpanic, -⟩ :=
    (batch_spawn_barrier fiveItems (Machine.reach_of_run _ hrun)).2.2.1 .errPanic hres
  exact ⟨by decide +kernel, c, hrun, hres, hpanic.1 rfl, hcalled, hout⟩

end Hypertile
