import Hypertile.Timer.Driver

/-!
# Sleeping futures

A poll of a `Sleep` decides to stay pending by the clock, and stores its waker later. In between the
timer thread may pop the one entry of the `Sleep`, with the waker of an earlier poll; the new waker
then waits in a slot that nobody looks at any more, as the `Sleep` is registered already. This is
the only way in which a waker is forgotten (`sleep_kept`).
-/

namespace Hypertile

open Machine Machine.Threads

variable {κ W ι : Type} [DecidableEq κ]

/-! ## Wakers -/

namespace TimerShared

/-- An entry of the slot is in the heap. -/
def Queued (s : TimerShared κ W) (k : κ) : Prop := ∃ e ∈ s.heap, e.waker = k

/-- The waker is in the slot, or the timer thread has taken it. -/
def Stored (s : TimerShared κ W) (k : κ) (w : W) : Prop := s.slot k = some w ∨ (k, w) ∈ s.taken

/-- The waker is in the slot and an entry of the slot is in the heap, or the timer thread has taken
the waker. -/
def Kept (s : TimerShared κ W) (k : κ) (w : W) : Prop :=
  s.slot k = some w ∧ s.Queued k ∨ (k, w) ∈ s.taken

end TimerShared

/-- A thread is in a poll of the `Sleep`. -/
def TimerCallerPc.polls (k : κ) : TimerCallerPc κ W → Bool
  | .clear k' | .store k' _ | .ask k' _ | .mark k' _ => k' = k
  | .push e (some _) => e.waker = k
  | _ => false

section
variable {deadline : κ → Option ℕ} {s s' : TimerShared κ W}

/-- The timer thread pops an entry and takes the waker of its slot, or leaves heap and slots. -/
theorem TimerTrans.slots {m m' : TimerPc κ W} {a : TimerAct κ} (h : TimerTrans s m a s' m') :
    s'.awaits = s.awaits ∧ s'.registered = s.registered ∧ s'.polling = s.polling ∧
      (s'.heap = s.heap ∧ s'.slot = s.slot ∧ s'.taken = s.taken ∨ ∃ e ∈ s.heap, s' = s.pop e) := by
  cases h with
  | pop hpeek => exact ⟨rfl, rfl, rfl, .inr ⟨_, hpeek.1, rfl⟩⟩
  | _ => exact ⟨rfl, rfl, rfl, .inl ⟨rfl, rfl, rfl⟩⟩

/-- A pop takes a waker that is in its slot. -/
theorem TimerShared.mem_pop_taken {e : TimerEntry κ} {k : κ} {w : W} :
    (k, w) ∈ (s.pop e).taken ↔ e.waker = k ∧ s.slot k = some w ∨ (k, w) ∈ s.taken := by
  simp only [TimerShared.pop, List.mem_append, List.mem_map, Option.mem_toList, Prod.mk.injEq]
  refine or_congr_left ⟨?_, ?_⟩
  · rintro ⟨_, hslot, rfl, rfl⟩
    exact ⟨rfl, hslot⟩
  · rintro ⟨rfl, hslot⟩
    exact ⟨w, hslot, rfl, rfl⟩

/-- The timer thread loses no waker. -/
theorem TimerTrans.stored {m m' : TimerPc κ W} {a : TimerAct κ} (h : TimerTrans s m a s' m') {k : κ}
    {w : W} (hw : s.Stored k w) : s'.Stored k w := by
  obtain ⟨-, -, -, ⟨-, hslot, htaken⟩ | ⟨e, -, rfl⟩⟩ := h.slots
  · rcases hw with hw | hw
    · exact .inl (hslot ▸ hw)
    · exact .inr (htaken ▸ hw)
  · rcases hw with hw | hw
    · by_cases hk : e.waker = k
      · exact .inr (TimerShared.mem_pop_taken.2 (.inl ⟨hk, hw⟩))
      · left
        exact (Function.update_of_ne (Ne.symm hk) ..).trans hw
    · exact .inr (TimerShared.mem_pop_taken.2 (.inr hw))

/-- The timer thread takes the waker with the entry. -/
theorem TimerTrans.kept {m m' : TimerPc κ W} {a : TimerAct κ} (h : TimerTrans s m a s' m') {k : κ}
    {w : W} (hw : s.Kept k w) : s'.Kept k w := by
  obtain ⟨-, -, -, ⟨hheap, hslot, htaken⟩ | ⟨e, -, rfl⟩⟩ := h.slots
  · unfold TimerShared.Kept TimerShared.Queued
    rwa [hheap, hslot, htaken]
  · rcases hw with ⟨hw, other, hmem, hother⟩ | hw
    · by_cases hk : e.waker = k
      · exact .inr (TimerShared.mem_pop_taken.2 (.inl ⟨hk, hw⟩))
      · refine .inl ⟨(Function.update_of_ne (Ne.symm hk) ..).trans hw, other, ?_, hother⟩
        refine (List.mem_erase_of_ne ?_).2 hmem
        rintro rfl
        exact hk hother
    · exact .inr (TimerShared.mem_pop_taken.2 (.inr hw))

variable {m m' : TimerCallerPc κ W} {a : TimerCallerAct κ W} {k : κ}

/-- A caller that is not in a poll of a `Sleep` leaves what belongs to it. -/
theorem TimerCallerTrans.others (h : TimerCallerTrans deadline s m a s' m')
    (hk : deadline k ≠ none) (hm : m.polls k = false)
    (hforeign : ∀ e, m = .push e none → deadline e.waker = none) :
    s'.slot k = s.slot k ∧ s'.awaits k = s.awaits k ∧ s'.registered k = s.registered k ∧
      s'.taken = s.taken ∧ (s'.Queued k ↔ s.Queued k) := by
  have hother : ∀ {k'}, k' ≠ k → ∀ {β : Type} (f : κ → β) (b : β), Function.update f k' b k = f k :=
    fun hne _ f b => Function.update_of_ne (Ne.symm hne) b f
  have hpush : ∀ {e : TimerEntry κ}, e.waker ≠ k → ((s.push e).Queued k ↔ s.Queued k) := by
    intro e he
    simp [TimerShared.Queued, TimerShared.push, TimerShared.notify, he]
  cases h with
  | @write k' w hfree =>
    have hne : k' ≠ k := by
      rintro rfl
      exact hk hfree
    exact ⟨hother hne .., rfl, rfl, rfl, .rfl⟩
  | @clear k' | @store k' w =>
    have hne : k' ≠ k := by simpa [TimerCallerPc.polls] using hm
    exact ⟨hother hne .., hother hne .., rfl, rfl, .rfl⟩
  | @pending k' w =>
    have hne : k' ≠ k := by simpa [TimerCallerPc.polls] using hm
    exact ⟨rfl, hother hne .., rfl, rfl, .rfl⟩
  | @mark k' w =>
    have hne : k' ≠ k := by simpa [TimerCallerPc.polls] using hm
    exact ⟨rfl, hother hne .., hother hne .., rfl, .rfl⟩
  | @push e =>
    have hne : e.waker ≠ k := by
      intro he
      exact hk (he ▸ hforeign e rfl)
    exact ⟨rfl, rfl, rfl, rfl, hpush hne⟩
  | @pushSleep e w =>
    have hne : e.waker ≠ k := by simpa [TimerCallerPc.polls] using hm
    exact ⟨rfl, rfl, rfl, rfl, hpush hne⟩
  | _ => exact ⟨rfl, rfl, rfl, rfl, .rfl⟩

/-- A poll borrows its `Sleep`, and gives it back when it returns. -/
theorem TimerCallerTrans.polling (h : TimerCallerTrans deadline s m a s' m') (k : κ)
    (hb : m.polls k = true → s.polling k = true) :
    (m'.polls k = true → s'.polling k = true ∧ (m.polls k = true ∨ s.polling k = false)) ∧
      (m.polls k = false → m'.polls k = false → s'.polling k = s.polling k) := by
  cases h with
  | @ready k' _ _ _ hfree | @poll k' _ _ _ hfree =>
    by_cases hk : k' = k
    · subst hk
      simp [TimerCallerPc.polls, hfree]
    · simp [TimerCallerPc.polls, hk, Function.update_of_ne (Ne.symm hk)]
  | @clear k' | @pending k' | @mark k' =>
    by_cases hk : k' = k
    · subst hk
      simp [TimerCallerPc.polls]
    · simp [TimerCallerPc.polls, hk, TimerShared.pending, Function.update_of_ne (Ne.symm hk)]
  | store | ask | pushSleep => exact ⟨fun hm => ⟨hb hm, .inl hm⟩, fun _ _ => rfl⟩
  | _ => exact ⟨nofun, fun _ _ => rfl⟩

/-- What belongs to a `Sleep` is not touched by direct callers of `register`. -/
theorem TimerCallerTrans.foreign (h : TimerCallerTrans deadline s m a s' m') {e : TimerEntry κ}
    (hm' : m' = .push e none) : deadline e.waker = none := by
  cases h with
  | register hfree => cases hm'; exact hfree
  | _ => cases hm'

/-- A poll is one of a `Sleep`. -/
theorem TimerCallerTrans.sleeps (h : TimerCallerTrans deadline s m a s' m')
    (hm' : m'.polls k = true) : m.polls k = true ∨ deadline k ≠ none := by
  cases h with
  | ready hd | poll hd =>
    have hk := of_decide_eq_true hm'
    subst hk
    exact .inr (by rw [hd]; nofun)
  | store | ask | pushSleep => exact .inl hm'
  | _ => cases hm'

/-- A waker comes to be awaited at the end of a poll that does not write the slot any more. -/
theorem TimerCallerTrans.awaited (h : TimerCallerTrans deadline s m a s' m')
    (hm : m.polls k = true) {w : W} (hw : s'.awaits k = some w) :
    (s.awaits k = some w ∨ m = .ask k w ∧ s.registered k = true ∨ m = .mark k w) ∧
      (s.Kept k w → s'.Kept k w) := by
  cases h with
  | clear | store =>
    have hk := of_decide_eq_true hm
    subst hk
    simp [TimerShared.writeSlot] at hw
  | pending hregistered =>
    have hk := of_decide_eq_true hm
    subst hk
    have hw := (Function.update_self ..).symm.trans hw
    cases hw
    exact ⟨.inr (.inl ⟨rfl, hregistered⟩), id⟩
  | mark =>
    have hk := of_decide_eq_true hm
    subst hk
    have hw := (Function.update_self ..).symm.trans hw
    cases hw
    exact ⟨.inr (.inr rfl), id⟩
  | pushSleep =>
    refine ⟨.inl hw, fun hkept => hkept.imp_left ?_⟩
    rintro ⟨hslot, e, hmem, he⟩
    exact ⟨hslot, e, .tail _ hmem, he⟩
  | ask => exact ⟨.inl hw, id⟩
  | _ => cases hm

/-- Only a poll of a `Sleep` makes a waker awaited. -/
theorem TimerCallerTrans.awaited_of (h : TimerCallerTrans deadline s m a s' m')
    (hforeign : ∀ e, m = .push e none → deadline e.waker = none)
    (hsleeps : m.polls k = true → deadline k ≠ none)
    (hawaited : s.awaits k ≠ none → deadline k ≠ none) (hw : s'.awaits k ≠ none) :
    deadline k ≠ none := by
  intro hk
  cases h with
  | @clear k' | @store k' | @pending k' | @mark k' =>
    by_cases hkk : k' = k
    · subst hkk
      exact hsleeps (by simp [TimerCallerPc.polls]) hk
    · refine hawaited ?_ hk
      simpa [TimerShared.writeSlot, TimerShared.pending, Function.update_of_ne (Ne.symm hkk)] using hw
  | _ => exact hawaited hw hk

end

/-! ## What holds of every run -/

section
variable {deadline : κ → Option ℕ} {now : ℕ} {c c' : TimerConfig κ W ι}

/-- A `Sleep` is borrowed by one poll at a time, and its slot is its own. -/
structure SleepInv (deadline : κ → Option ℕ) (c : TimerConfig κ W ι) : Prop where
  borrow : ∀ k, Mutex (c.shared.polling k) (TimerCallerPc.polls k) c.loc
  foreign : ∀ i e, c.loc i = .push e none → deadline e.waker = none
  sleeps : ∀ i k, (c.loc i).polls k = true → deadline k ≠ none
  awaited : ∀ k, c.shared.awaits k ≠ none → deadline k ≠ none

/-- What a caller knows of the `Sleep` that it polls. -/
def TimerCallerPc.Sound (s : TimerShared κ W) : TimerCallerPc κ W → Prop
  | .ask k w => s.Stored k w ∧ (s.registered k = true → s.Kept k w)
  | .push e (some w) => s.Stored e.waker w
  | .mark k w => s.Kept k w
  | _ => True

variable [DecidableEq ι]

/-- A step keeps the invariant. -/
theorem SleepInv.step {a : TimerAct κ ⊕ ι × TimerCallerAct κ W} (hI : SleepInv deadline c)
    (hst : (timerMachine W ι deadline now).step c a = some c') : SleepInv deadline c' := by
  obtain ⟨hborrow, hforeign, hsleeps, hawaited⟩ := hI
  rcases timerMachine_step hst with ⟨b, s', m', -, h, rfl⟩ | ⟨i, b, s', m', -, h, rfl⟩
  · obtain ⟨hawaits, -, hpolling, -⟩ := h.slots
    refine ⟨fun k => ?_, hforeign, hsleeps, fun k => ?_⟩
    · change Mutex (s'.polling k) _ _
      rw [hpolling]
      exact hborrow k
    · change s'.awaits k ≠ none → _
      rw [hawaits]
      exact hawaited k
  · refine ⟨fun k => ?_, fun j e hj => ?_, fun j k hj => ?_, fun k hw => ?_⟩
    · have hpoll := h.polling k (hborrow k).locked_of_holds
      exact (hborrow k).step hpoll.1 hpoll.2
    · change Function.update c.loc i m' j = _ at hj
      by_cases hji : j = i
      · subst hji
        rw [Function.update_self] at hj
        exact h.foreign hj
      · rw [Function.update_of_ne hji] at hj
        exact hforeign j e hj
    · change (Function.update c.loc i m' j).polls k = _ at hj
      by_cases hji : j = i
      · subst hji
        rw [Function.update_self] at hj
        exact (h.sleeps hj).elim (hsleeps j k) id
      · rw [Function.update_of_ne hji] at hj
        exact hsleeps j k hj
    · exact h.awaited_of (hforeign i) (hsleeps i k) (hawaited k) hw

/-! ## Wakers that are stored in time -/

/-- A poll that has decided to stay pending stores its waker before the timer thread has popped the
entry of the `Sleep`, if that is registered already; or the timer thread has taken that waker. -/
def storesInTime (c : TimerConfig κ W ι) (a : TimerAct κ ⊕ ι × TimerCallerAct κ W) : Prop :=
  ∀ i k w, a = .inr (i, .go) → c.loc i = .store k w → c.shared.registered k = true →
    c.shared.Queued k ∨ (k, w) ∈ c.shared.taken

/-- The waker of the last poll that has returned `Pending`, unless a later poll has written the slot
since, is in the slot with an entry of it in the heap, or was taken by the timer thread. -/
def SleepKept (c : TimerConfig κ W ι) : Prop :=
  ∀ k w, c.shared.awaits k = some w → c.shared.Kept k w

/-- What holds of the runs in which wakers are stored in time. -/
structure KeptInv (deadline : κ → Option ℕ) (c : TimerConfig κ W ι) : Prop where
  inv : SleepInv deadline c
  kept : SleepKept c
  callers : ∀ i, (c.loc i).Sound c.shared

/-- A caller's knowledge depends on what belongs to the `Sleep` that it polls. -/
theorem TimerCallerPc.Sound.mono {s s' : TimerShared κ W} {m : TimerCallerPc κ W} (h : m.Sound s)
    (hkeep : ∀ k, m.polls k = true → s'.registered k = s.registered k ∧
      ∀ w, (s.Stored k w → s'.Stored k w) ∧ (s.Kept k w → s'.Kept k w)) : m.Sound s' := by
  cases m with
  | ask k w =>
    obtain ⟨hregistered, hw⟩ := hkeep k (by simp [TimerCallerPc.polls])
    refine ⟨(hw w).1 h.1, fun hr => (hw w).2 (h.2 ?_)⟩
    rwa [hregistered] at hr
  | push e w =>
    cases w with
    | none => trivial
    | some w => exact ((hkeep e.waker (by simp [TimerCallerPc.polls])).2 w).1 h
  | mark k w => exact ((hkeep k (by simp [TimerCallerPc.polls])).2 w).2 h
  | _ => trivial

/-- What a caller knows after its step. -/
theorem TimerCallerTrans.sound {s s' : TimerShared κ W} {m m' : TimerCallerPc κ W}
    {a : TimerCallerAct κ W} (h : TimerCallerTrans deadline s m a s' m') (hm : m.Sound s)
    (hintime : ∀ k w, m = .store k w → a = .go → s.registered k = true →
      s.Queued k ∨ (k, w) ∈ s.taken) : m'.Sound s' := by
  cases h with
  | @store k w =>
    have hslot : (s.writeSlot k (some w)).slot k = some w := Function.update_self ..
    refine ⟨.inl hslot, fun hregistered => ?_⟩
    rcases hintime k w rfl rfl hregistered with hqueued | htaken
    · exact .inl ⟨hslot, hqueued⟩
    · exact .inr htaken
  | ask => exact hm.1
  | @pushSleep e w =>
    rcases hm with hslot | htaken
    · exact .inl ⟨hslot, e, .head _, rfl⟩
    · exact .inr htaken
  | _ => trivial

/-- A step that stores its waker in time keeps that. -/
theorem KeptInv.step {a : TimerAct κ ⊕ ι × TimerCallerAct κ W} (hI : KeptInv deadline c)
    (hintime : storesInTime c a) (hst : (timerMachine W ι deadline now).step c a = some c') :
    KeptInv deadline c' := by
  have hinv := hI.inv.step hst
  refine ⟨hinv, ?_, ?_⟩
  · intro k w hw
    have hk := hinv.awaited k (by rw [hw]; nofun)
    rcases timerMachine_step hst with ⟨b, s', m', -, h, rfl⟩ | ⟨i, b, s', m', -, h, rfl⟩
    · exact h.kept (hI.kept k w (h.slots.1 ▸ hw))
    · cases hm : (c.loc i).polls k with
      | false =>
        obtain ⟨hslot, hawaits, -, htaken, hqueued⟩ := h.others hk hm (hI.inv.foreign i)
        have hkept := hI.kept k w (hawaits ▸ hw)
        change s'.slot k = some w ∧ s'.Queued k ∨ (k, w) ∈ s'.taken
        rwa [hslot, htaken, hqueued]
      | true =>
        obtain ⟨hwas, hmono⟩ := h.awaited hm hw
        refine hmono ?_
        have hsound := hI.callers i
        rcases hwas with hawaits | ⟨hask, hregistered⟩ | hmark
        · exact hI.kept k w hawaits
        · rw [hask] at hsound
          exact hsound.2 hregistered
        · rw [hmark] at hsound
          exact hsound
  · intro j
    rcases timerMachine_step hst with ⟨b, s', m', -, h, rfl⟩ | ⟨i, b, s', m', rfl, h, rfl⟩
    · refine (hI.callers j).mono fun k _ => ⟨by rw [h.slots.2.1], fun w => ⟨h.stored, h.kept⟩⟩
    · change (Function.update c.loc i m' j).Sound s'
      by_cases hji : j = i
      · subst hji
        rw [Function.update_self]
        refine h.sound (hI.callers j) fun k w hm hgo hr => hintime j k w ?_ hm hr
        rw [hgo]
      · rw [Function.update_of_ne hji]
        refine (hI.callers j).mono fun k hk => ?_
        have hidle : (c.loc i).polls k = false :=
          Bool.eq_false_iff.2 fun hi => hji ((hI.inv.borrow k).unique hk hi)
        obtain ⟨hslot, -, hregistered, htaken, hqueued⟩ :=
          h.others (hI.inv.sleeps j k hk) hidle (hI.inv.foreign i)
        refine ⟨hregistered, fun w => ?_⟩
        unfold TimerShared.Stored TimerShared.Kept
        rw [hslot, htaken, hqueued]
        exact ⟨id, id⟩

/-- A poll is about to return `Pending` with a waker that nobody will take. -/
def Forgotten (c : TimerConfig κ W ι) : Prop :=
  ∃ i k w, c.loc i = .ask k w ∧ c.shared.registered k = true ∧ ¬ c.shared.Queued k ∧
    (k, w) ∉ c.shared.taken

/-- It stays so until it returns. -/
theorem Forgotten.step {a : TimerAct κ ⊕ ι × TimerCallerAct κ W} (hI : SleepInv deadline c)
    (hF : Forgotten c) (hst : (timerMachine W ι deadline now).step c a = some c')
    (hkept : SleepKept c') : Forgotten c' := by
  obtain ⟨j, k, w, hj, hregistered, hqueued, htaken⟩ := hF
  have hpolls : (c.loc j).polls k = true := by simp [hj, TimerCallerPc.polls]
  rcases timerMachine_step hst with ⟨b, s', m', -, h, rfl⟩ | ⟨i, b, s', m', -, h, rfl⟩
  · obtain ⟨-, hr, -, hslots⟩ := h.slots
    refine ⟨j, k, w, hj, (congrFun hr k).trans hregistered, ?_⟩
    rcases hslots with ⟨hheap, -, ht⟩ | ⟨e, hmem, rfl⟩
    · refine ⟨?_, fun hmem => htaken (ht ▸ hmem)⟩
      rintro ⟨e, hmem, he⟩
      exact hqueued ⟨e, hheap ▸ hmem, he⟩
    · refine ⟨?_, fun htake => ?_⟩
      · rintro ⟨other, hother, he⟩
        exact hqueued ⟨other, List.mem_of_mem_erase hother, he⟩
      · rcases TimerShared.mem_pop_taken.1 htake with ⟨he, -⟩ | hmem'
        · exact hqueued ⟨e, hmem, he⟩
        · exact htaken hmem'
  · by_cases hji : j = i
    · subst hji
      rw [hj] at h
      cases h with
      | pending =>
        rcases hkept k w (Function.update_self ..) with ⟨-, hq⟩ | ht
        · exact absurd hq hqueued
        · exact absurd ht htaken
      | ask hno =>
        rw [hregistered] at hno
        cases hno
    · have hidle : (c.loc i).polls k = false :=
        Bool.eq_false_iff.2 fun hi => hji ((hI.borrow k).unique hpolls hi)
      obtain ⟨-, -, hr, ht, hq⟩ := h.others (hI.sleeps j k hpolls) hidle (hI.foreign i)
      exact ⟨j, k, w, (Function.update_of_ne hji ..).trans hj, hr.trans hregistered,
        fun h => hqueued (hq.1 h), fun h => htaken (ht ▸ h)⟩

/-- A poll that does not store its waker in time forgets it. -/
theorem forgotten_of {a : TimerAct κ ⊕ ι × TimerCallerAct κ W} (hlate : ¬ storesInTime c a)
    (hst : (timerMachine W ι deadline now).step c a = some c') : Forgotten c' := by
  unfold storesInTime at hlate
  push Not at hlate
  obtain ⟨i, k, w, rfl, hi, hregistered, hqueued, htaken⟩ := hlate
  rcases timerMachine_step hst with ⟨b, s', m', hb, -⟩ | ⟨j, b, s', m', hb, h, rfl⟩
  · cases hb
  cases hb
  rw [hi] at h
  cases h with
  | store => exact ⟨i, k, w, Function.update_self .., hregistered, hqueued, htaken⟩

end

/-- In a run in which wakers are stored in time no waker of a pending `Sleep` is forgotten; and if
none is forgotten in a run at the end of which no poll is under way, wakers were stored in time. -/
theorem sleep_kept (W ι : Type) [DecidableEq ι] (deadline : κ → Option ℕ) (now : ℕ)
    (as : List (TimerAct κ ⊕ ι × TimerCallerAct κ W)) :
    ((timerMachine W ι deadline now).AllSteps storesInTime (timerMachine W ι deadline now).init as →
      (timerMachine W ι deadline now).AllStates SleepKept (timerMachine W ι deadline now).init as) ∧
    ∀ c, (timerMachine W ι deadline now).run (timerMachine W ι deadline now).init as = some c →
      (∀ k, c.shared.polling k = false) →
      (timerMachine W ι deadline now).AllStates SleepKept (timerMachine W ι deadline now).init as →
      (timerMachine W ι deadline now).AllSteps storesInTime (timerMachine W ι deadline now).init
        as := by
  have hinit : SleepInv deadline (timerMachine W ι deadline now).init :=
    ⟨fun _ => .free fun _ => rfl, nofun, nofun, fun _ hw => absurd rfl hw⟩
  constructor
  · exact AllSteps.allStates (I := KeptInv deadline) (fun _ hI => hI.kept)
      (fun _ _ _ hI hintime hst => hI.step hintime hst) ⟨hinit, nofun, fun _ => trivial⟩
  · intro c hrun hidle hall
    rcases AllStates.allSteps_or (I := SleepInv deadline) (D := Forgotten)
      (fun _ _ _ hI hst => hI.step hst) (fun _ _ _ hI hF hst hkept => hF.step hI hst hkept)
      (fun _ _ _ _ hlate hst => forgotten_of hlate hst) as hinit hall hrun with hsteps | hforgotten
    · exact hsteps
    · obtain ⟨i, k, w, hi, -⟩ := hforgotten
      have hinv : SleepInv deadline c := (reach_of_run as hrun).invariant hinit
        fun _ _ _ hI _ hst => hI.step hst
      have hpolls : (c.loc i).polls k = true := by simp [hi, TimerCallerPc.polls]
      have hpolling := (hinv.borrow k).locked_of_holds hpolls
      rw [hidle k] at hpolling
      cases hpolling

/-- A `Sleep` of 100 microseconds is polled with one waker, and then with another one, which is
stored when the timer thread has popped the entry. -/
def expiresInPoll : List (TimerAct Unit ⊕ Unit × TimerCallerAct Unit Bool) :=
  .inr ((), .poll () false) :: List.replicate 4 (.inr ((), .go)) ++
    [.inr ((), .poll () true), .inl (.tick 100000), .inl .go, .inl .go,
      .inl (.peek ⟨100000, 1, ()⟩)] ++ List.replicate 2 (.inr ((), .go))

/-- After that run the poll has returned `Pending`, its waker was not taken, and the heap is empty.
-/
theorem waker_forgotten_in_slot :
    ∃ c, (timerMachine Bool Unit (fun _ => some 100000) 0).run
        (timerMachine Bool Unit (fun _ => some 100000) 0).init expiresInPoll = some c ∧
      c.shared.awaits () = some true ∧ c.shared.taken = [((), false)] ∧ c.shared.heap = [] ∧
      ¬ SleepKept c := by
  refine ⟨_, rfl, rfl, rfl, rfl, fun hkept => ?_⟩
  rcases hkept () true rfl with ⟨-, e, hmem, -⟩ | htaken
  · cases hmem
  · have htaken : ((), true) ∈ [((), false)] := htaken
    simp at htaken

end Hypertile
