import Hypertile.CApi.Batch
import Hypertile.Pool.Core

/-!
# Worker registration in re-entrant calls

The calls of one thread of `hypertile_register_worker`, `hypertile_worker_deregister` and
`hypertile_worker_run_until_idle`, whose tasks may make such calls themselves. A run takes the
registration out of `THREAD_WORKER` while its tasks execute, and puts it back if the slot is still
empty then; otherwise it drops it. So a task that deregisters the thread finds an empty slot, unless
a task of the same run has registered the thread; and what it deregisters then is not what the run
puts back. Exactly where neither happens, each deregister finds the live registration, and the
thread has the entry of its last register or none (`registration_faithful_iff`).
-/

namespace Hypertile

/-- Calls that a thread makes one after the other. Those under `run` are made by the tasks that the
run executes. -/
inductive WorkerCalls where
  | done
  | register (rest : WorkerCalls)
  | deregister (rest : WorkerCalls)
  | run (body rest : WorkerCalls)

/-- A thread: `THREAD_WORKER`, and its entries in the worker registry, which are named in the order
in which they are made. Recorded are the answers of `hypertile_worker_deregister`, each with whether
the thread had an entry then, and the last call of register, with its entry, or deregister. -/
structure WorkerThread where
  slot : Option WorkerId
  entries : List WorkerId
  nextId : WorkerId
  answers : List (Bool × HypertileStatus)
  last : Option (Option WorkerId)

namespace WorkerThread

/-- A thread that has made no calls. -/
def new : WorkerThread where
  slot := none
  entries := []
  nextId := WorkerRegistry.firstWorkerId
  answers := []
  last := none

/-- A registration is dropped: `WorkerGuard::drop` deregisters its worker. -/
def dropWorker (t : WorkerThread) (worker : WorkerId) : WorkerThread :=
  { t with entries := t.entries.filter (· ≠ worker) }

/-- What is in the slot is dropped. -/
def dropSlot (t : WorkerThread) : WorkerThread :=
  match t.slot with
  | some worker => { t.dropWorker worker with slot := none }
  | none => t

/-- `core_register_worker`. -/
def newWorker (t : WorkerThread) : WorkerThread :=
  { t with entries := t.nextId :: t.entries, nextId := t.nextId + 1 }

/-- `hypertile_register_worker`: the new registration takes the place of the one in the slot, which
is dropped. -/
def register (t : WorkerThread) : WorkerThread :=
  { t.newWorker.dropSlot with slot := some t.nextId, last := some (some t.nextId) }

/-- `hypertile_worker_deregister`. -/
def deregister (t : WorkerThread) : WorkerThread :=
  let status := if t.slot.isSome then .ok else .errWorkerNotRegistered
  { t.dropSlot with
    answers := (!t.entries.isEmpty, status) :: t.answers
    last := some none }

/-- The end of a run: its registration is put back, or dropped where the slot is taken. -/
def putBack (t : WorkerThread) (worker : WorkerId) : WorkerThread :=
  match t.slot with
  | none => { t with slot := some worker }
  | some _ => t.dropWorker worker

/-- `hypertile_worker_run_until_idle`, where the tasks do `tasks`. -/
def runUntilIdle (tasks : WorkerThread → WorkerThread) (t : WorkerThread) : WorkerThread :=
  match t.slot with
  | none => t
  | some worker => (tasks { t with slot := none }).putBack worker

end WorkerThread

namespace WorkerCalls

open WorkerThread

/-- The thread after its calls. -/
def exec : WorkerCalls → WorkerThread → WorkerThread
  | .done, t => t
  | .register rest, t => exec rest t.register
  | .deregister rest, t => exec rest t.deregister
  | .run body rest, t => exec rest (t.runUntilIdle (exec body))

/-- The thread after each of its outermost calls. -/
def states : WorkerCalls → WorkerThread → List WorkerThread
  | .done, _ => []
  | .register rest, t => t.register :: states rest t.register
  | .deregister rest, t => t.deregister :: states rest t.deregister
  | .run body rest, t =>
    t.runUntilIdle (exec body) :: states rest (t.runUntilIdle (exec body))

/-! ## The condition -/

/-- The last call of register (`true`) or deregister (`false`) that is executed, where the slot is
filled at the start or not. A run with an empty slot executes nothing. -/
def lastCall : WorkerCalls → Bool → Option Bool
  | .done, _ => none
  | .register rest, _ => (lastCall rest true).or (some true)
  | .deregister rest, _ => (lastCall rest false).or (some false)
  | .run body rest, true => (lastCall rest true).or (lastCall body false)
  | .run _ rest, false => lastCall rest false

/-- Among the calls of the tasks of a run, each deregister that is executed comes after a register
of the same run, with no deregister of it in between. -/
def Matched : WorkerCalls → Bool → Prop
  | .done, _ => True
  | .register rest, _ => rest.Matched true
  | .deregister rest, filled => filled = true ∧ rest.Matched false
  | .run body rest, true => body.Matched false ∧ rest.Matched true
  | .run _ rest, false => rest.Matched false

/-- Each outermost run that is executed is matched, and the last call of register or deregister in
it is not a deregister. -/
def WellNested : WorkerCalls → Bool → Prop
  | .done, _ => True
  | .register rest, _ => rest.WellNested true
  | .deregister rest, _ => rest.WellNested false
  | .run body rest, true =>
    body.Matched false ∧ body.lastCall false ≠ some false ∧ rest.WellNested true
  | .run _ rest, false => rest.WellNested false

end WorkerCalls

/-! ## What a call leaves -/

namespace WorkerThread

/-- The entries of the thread are that of the slot and those that the runs under way have taken out
of it; they are distinct, and older than the next one. -/
structure Framed (t : WorkerThread) (held : List WorkerId) : Prop where
  entries : t.entries = t.slot.toList ++ held
  nodup : t.entries.Nodup
  old : ∀ id ∈ t.entries, id < t.nextId

/-- Each deregister that was called with a live registration has returned `Ok`. -/
def Answered (t : WorkerThread) : Prop := ∀ x ∈ t.answers, x.1 = true → x.2 = .ok

/-- The thread has the entry of its last register, unless a deregister came after it. -/
def Registered (t : WorkerThread) : Prop := t.entries = (t.last.getD none).toList

variable {t : WorkerThread} {held : List WorkerId}

/-- Without the entry in the slot the others are left. -/
theorem Framed.filter_ne (h : t.Framed held) {worker : WorkerId} (hslot : t.slot = some worker) :
    worker ∉ held ∧ held.filter (· ≠ worker) = held := by
  have hnodup := h.nodup
  rw [h.entries, hslot, Option.toList_some, List.singleton_append, List.nodup_cons] at hnodup
  refine ⟨hnodup.1, List.filter_eq_self.2 fun id hid => ?_⟩
  simp only [ne_eq, decide_eq_true_eq]
  rintro rfl
  exact hnodup.1 hid

/-- What is in the slot is dropped from the entries. -/
theorem Framed.dropSlot_entries (h : t.Framed held) : t.dropSlot.entries = held := by
  cases hslot : t.slot with
  | none => simp [dropSlot, hslot, h.entries]
  | some worker =>
    have hheld := (h.filter_ne hslot).2
    simp only [dropSlot, hslot, dropWorker, h.entries, Option.toList_some, List.singleton_append]
    rw [List.filter_cons_of_neg (by simp), hheld]

/-- The slot after a deregister. -/
@[simp] theorem slot_dropSlot : t.dropSlot.slot = none := by
  cases hslot : t.slot <;> simp [dropSlot, hslot]

/-- A register keeps the frame. -/
theorem Framed.register (h : t.Framed held) : t.register.Framed held := by
  have hnew : t.nextId ∉ t.entries := fun hmem => (h.old _ hmem).ne rfl
  have hentries : t.register.entries = t.nextId :: held := by
    cases hslot : t.slot with
    | none => simp [WorkerThread.register, newWorker, dropSlot, hslot, h.entries]
    | some worker =>
      have hheld := (h.filter_ne hslot).2
      have hne : t.nextId ≠ worker := by
        rintro rfl
        exact hnew (by simp [h.entries, hslot])
      simp only [WorkerThread.register, newWorker, dropSlot, hslot, dropWorker, h.entries,
        Option.toList_some, List.singleton_append]
      rw [List.filter_cons_of_pos (by simpa using hne), List.filter_cons_of_neg (by simp), hheld]
  have hsub : ∀ id ∈ held, id ∈ t.entries := fun id hid => by simp [h.entries, hid]
  have hnext : t.register.nextId = t.nextId + 1 := by
    cases hslot : t.slot <;> simp [WorkerThread.register, newWorker, dropSlot, hslot, dropWorker]
  refine ⟨hentries, ?_, ?_⟩
  · rw [hentries]
    have hnodup := h.nodup
    rw [h.entries] at hnodup
    exact List.nodup_cons.2 ⟨fun hmem => hnew (hsub _ hmem), hnodup.of_append_right⟩
  · intro id hid
    rw [hentries] at hid
    rw [hnext]
    rcases List.mem_cons.1 hid with rfl | hid
    · exact Nat.lt_succ_self _
    · exact (h.old id (hsub id hid)).trans (Nat.lt_succ_self _)

/-- A deregister keeps the frame. -/
theorem Framed.deregister (h : t.Framed held) : t.deregister.Framed held := by
  have hentries : t.deregister.entries = held := h.dropSlot_entries
  have hnext : t.deregister.nextId = t.nextId := by
    cases hslot : t.slot <;> simp [WorkerThread.deregister, dropSlot, hslot, dropWorker]
  have hnodup := h.nodup
  rw [h.entries] at hnodup
  refine ⟨?_, ?_, fun id hid => ?_⟩
  · rw [hentries, show t.deregister.slot = none from slot_dropSlot]
    rfl
  · rw [hentries]
    exact hnodup.of_append_right
  · rw [hnext]
    rw [hentries] at hid
    exact h.old id (by simp [h.entries, hid])

/-- A run takes the registration over. -/
theorem Framed.take (h : t.Framed held) {worker : WorkerId} (hslot : t.slot = some worker) :
    ({ t with slot := none } : WorkerThread).Framed (worker :: held) where
  entries := by simp [h.entries, hslot]
  nodup := h.nodup
  old := h.old

/-- A run puts its registration back, or drops it. -/
theorem Framed.putBack {worker : WorkerId} (h : t.Framed (worker :: held)) :
    (t.putBack worker).Framed held := by
  cases hslot : t.slot with
  | none =>
    simp only [WorkerThread.putBack, hslot]
    exact ⟨by simp [h.entries, hslot], h.nodup, h.old⟩
  | some worker' =>
    have hnodup := h.nodup
    rw [h.entries, hslot, Option.toList_some, List.singleton_append, List.nodup_cons,
      List.nodup_cons] at hnodup
    obtain ⟨hne, hheld, hnd⟩ := hnodup
    have hne' : worker' ≠ worker := fun he => hne (he ▸ .head _)
    have hentries : (t.putBack worker).entries = worker' :: held := by
      simp only [WorkerThread.putBack, hslot, dropWorker, h.entries, Option.toList_some,
        List.singleton_append]
      rw [List.filter_cons_of_pos (by simpa using hne'), List.filter_cons_of_neg (by simp),
        List.filter_eq_self.2]
      intro id hid
      simp only [ne_eq, decide_eq_true_eq]
      rintro rfl
      exact hheld hid
    have hsame : (t.putBack worker).slot = some worker' ∧
        (t.putBack worker).nextId = t.nextId := by
      simp [WorkerThread.putBack, hslot, dropWorker]
    refine ⟨by rw [hentries, hsame.1]; rfl, ?_, fun id hid => ?_⟩
    · rw [hentries]
      exact List.nodup_cons.2 ⟨fun hmem => hne (.tail _ hmem), hnd⟩
    · rw [hsame.2]
      rw [hentries] at hid
      refine h.old id ?_
      rcases List.mem_cons.1 hid with rfl | hid
      · simp [h.entries, hslot]
      · simp [h.entries, hid]

/-- What a run changes besides the slot and the entries is what its tasks change. -/
theorem putBack_keeps (t : WorkerThread) (worker : WorkerId) :
    (t.putBack worker).answers = t.answers ∧ (t.putBack worker).last = t.last ∧
      (t.putBack worker).slot = some (t.slot.getD worker) := by
  cases hslot : t.slot <;> simp [WorkerThread.putBack, hslot, dropWorker]

/-- The answers of a thread whose record is that of another one. -/
theorem answered_congr {t' : WorkerThread} (h : t'.answers = t.answers) :
    t'.Answered ↔ t.Answered := by
  rw [Answered, Answered, h]

/-- A register answers nothing. -/
theorem answers_register (t : WorkerThread) : t.register.answers = t.answers := by
  cases hslot : t.slot <;> simp [WorkerThread.register, newWorker, dropSlot, hslot, dropWorker]

/-- A deregister is answered by the slot; the thread has an entry if the slot or a run has one. -/
theorem Framed.answered_deregister (h : t.Framed held) : t.deregister.Answered ↔
    (held ≠ [] → t.slot.isSome = true) ∧ t.Answered := by
  have hanswers : t.deregister.answers = (!t.entries.isEmpty,
      if t.slot.isSome then .ok else .errWorkerNotRegistered) :: t.answers := by
    cases hslot : t.slot <;> simp [WorkerThread.deregister, dropSlot, hslot, dropWorker]
  rw [Answered, hanswers, List.forall_mem_cons]
  refine and_congr_left fun _ => ?_
  rw [h.entries]
  cases hslot : t.slot with
  | none => cases held <;> simp
  | some worker => simp

end WorkerThread

/-! ## What calls leave -/

namespace WorkerCalls

open WorkerThread

variable {t : WorkerThread} {held : List WorkerId}

/-- Calls keep the frame. -/
theorem framed_exec (cs : WorkerCalls) (h : t.Framed held) : (cs.exec t).Framed held := by
  induction cs generalizing t held with
  | done => exact h
  | register rest ih => exact ih h.register
  | deregister rest ih => exact ih h.deregister
  | run body rest ihBody ihRest =>
    refine ihRest ?_
    cases hslot : t.slot with
    | none => simpa [runUntilIdle, hslot] using h
    | some worker =>
      simp only [runUntilIdle, hslot]
      exact (ihBody (h.take hslot)).putBack

/-- What calls leave of the record of the last register or deregister, and of the slot: both as they
were, if there was none; a register, which is in the slot; or a deregister. -/
def Leaves (t t' : WorkerThread) : Option Bool → Prop
  | none => t'.last = t.last ∧ t'.slot = t.slot
  | some true => ∃ worker, t'.last = some (some worker) ∧ t'.slot = some worker
  | some false => t'.last = some none

/-- The last call of register or deregister, as it is recorded. -/
theorem last_exec (cs : WorkerCalls) (t : WorkerThread) :
    Leaves t (cs.exec t) (cs.lastCall t.slot.isSome) := by
  induction cs generalizing t with
  | done => exact ⟨rfl, rfl⟩
  | register rest ih =>
    have hrest := ih t.register
    simp only [lastCall, exec, show t.register.slot.isSome = true from rfl] at hrest ⊢
    cases hlast : rest.lastCall true with
    | none =>
      rw [hlast] at hrest
      exact ⟨t.nextId, hrest.1, hrest.2⟩
    | some b =>
      rw [hlast] at hrest
      cases b <;> exact hrest
  | deregister rest ih =>
    have hrest := ih t.deregister
    have hslot : t.deregister.slot = none := slot_dropSlot
    simp only [lastCall, exec, hslot, Option.isSome_none] at hrest ⊢
    cases hlast : rest.lastCall false with
    | none =>
      rw [hlast] at hrest
      exact hrest.1
    | some b =>
      rw [hlast] at hrest
      cases b <;> exact hrest
  | run body rest ihBody ihRest =>
    cases hslot : t.slot with
    | none =>
      have hrest := ihRest t
      simp only [lastCall, exec, runUntilIdle, hslot, Option.isSome_none] at hrest ⊢
      exact hrest
    | some worker =>
      have hbody := ihBody { t with slot := none }
      obtain ⟨-, hlast, hput⟩ := putBack_keeps (body.exec { t with slot := none }) worker
      have hrest := ihRest ((body.exec { t with slot := none }).putBack worker)
      simp only [lastCall, exec, runUntilIdle, hslot, Option.isSome_some, Option.isSome_none]
        at hbody hrest ⊢
      rw [hput, Option.isSome_some] at hrest
      cases hl : rest.lastCall true with
      | some b =>
        rw [hl] at hrest
        cases b <;> exact hrest
      | none =>
        rw [hl] at hrest
        cases hb : body.lastCall false with
        | none =>
          rw [hb] at hbody
          refine ⟨hrest.1.trans (hlast.trans hbody.1), ?_⟩
          rw [hrest.2, hput, hbody.2, hslot]
          rfl
        | some b =>
          rw [hb] at hbody
          cases b with
          | false => exact hrest.1.trans (hlast.trans hbody)
          | true =>
            obtain ⟨worker', hlast', hslot'⟩ := hbody
            refine ⟨worker', hrest.1.trans (hlast.trans hlast'), ?_⟩
            rw [hrest.2, hput, hslot']
            rfl

/-- In a run, each deregister that is called with a live registration returns `Ok` exactly if the
calls are matched. -/
theorem answered_exec (cs : WorkerCalls) (h : t.Framed held) (hheld : held ≠ []) :
    (cs.exec t).Answered ↔ t.Answered ∧ cs.Matched t.slot.isSome := by
  induction cs generalizing t held with
  | done => simp [exec, Matched]
  | register rest ih =>
    rw [exec, ih h.register hheld, answered_congr (answers_register t)]
    rfl
  | deregister rest ih =>
    have hslot : t.deregister.slot = none := slot_dropSlot
    rw [exec, ih h.deregister hheld, h.answered_deregister, hslot, Matched]
    constructor
    · rintro ⟨⟨hfilled, ha⟩, hrest⟩
      exact ⟨ha, hfilled hheld, hrest⟩
    · rintro ⟨ha, hfilled, hrest⟩
      exact ⟨⟨fun _ => hfilled, ha⟩, hrest⟩
  | run body rest ihBody ihRest =>
    cases hslot : t.slot with
    | none =>
      have hrun : t.runUntilIdle body.exec = t := by simp [runUntilIdle, hslot]
      rw [exec, hrun, ihRest h hheld, hslot]
      rfl
    | some worker =>
      have htake := h.take hslot
      obtain ⟨hanswers, -, hput⟩ := putBack_keeps (body.exec { t with slot := none }) worker
      have hrun : t.runUntilIdle body.exec =
          (body.exec { t with slot := none }).putBack worker := by
        simp [runUntilIdle, hslot]
      rw [exec, hrun, ihRest (framed_exec body htake).putBack hheld, answered_congr hanswers,
        ihBody htake (List.cons_ne_nil _ _), hput, and_assoc]
      rfl

/-- Outside of runs, a thread whose slot is that of its last register or deregister has the entry of
its last register or none after a call, unless the call ends with a deregister and the slot is
filled. -/
theorem registered_iff {t' : WorkerThread} {last : Option Bool} (h' : t'.Framed [])
    (hslot : t.slot = t.last.getD none) (hleaves : Leaves t t' last) :
    t'.Registered ↔ (last = some false → t'.slot = none) := by
  rw [Registered, h'.entries, List.append_nil]
  match last, hleaves with
  | none, ⟨hlast, hslot'⟩ => simp [hlast, hslot', hslot]
  | some true, ⟨worker, hlast, hslot'⟩ => simp [hlast, hslot']
  | some false, hlast =>
    have hlast : t'.last = some none := hlast
    cases hs : t'.slot <;> simp [hlast]

/-- Outside of runs, a thread that has the entry of its last register or none has it in its slot. -/
theorem slot_eq (h : t.Framed []) (hr : t.Registered) : t.slot = t.last.getD none := by
  rw [Registered, h.entries, List.append_nil] at hr
  cases hslot : t.slot <;> cases hlast : t.last.getD none <;> simp_all

/-- From a thread that is as claimed, each outermost call leaves it so exactly if the calls are well
nested. -/
theorem states_iff (cs : WorkerCalls) (h : t.Framed []) (ha : t.Answered) (hr : t.Registered) :
    (∀ t' ∈ cs.states t, t'.Answered ∧ t'.Registered) ↔ cs.WellNested t.slot.isSome := by
  have hslot := slot_eq h hr
  induction cs generalizing t with
  | done => simp [states, WellNested]
  | register rest ih =>
    have ha' : t.register.Answered := (answered_congr (answers_register t)).2 ha
    have hr' : t.register.Registered :=
      (registered_iff h.register hslot (last_exec (.register .done) t)).2 nofun
    have hrest := ih h.register ha' hr' (slot_eq h.register hr')
    exact List.forall_mem_cons.trans ((and_iff_right ⟨ha', hr'⟩).trans hrest)
  | deregister rest ih =>
    have hnone : t.deregister.slot = none := slot_dropSlot
    have ha' : t.deregister.Answered := h.answered_deregister.2 ⟨fun hne => absurd rfl hne, ha⟩
    have hr' : t.deregister.Registered :=
      (registered_iff h.deregister hslot (last_exec (.deregister .done) t)).2 fun _ => hnone
    have hrest := ih h.deregister ha' hr' (slot_eq h.deregister hr')
    rw [hnone] at hrest
    exact List.forall_mem_cons.trans ((and_iff_right ⟨ha', hr'⟩).trans hrest)
  | run body rest _ ih =>
    cases hs : t.slot with
    | none =>
      have hrun : t.runUntilIdle body.exec = t := by simp [runUntilIdle, hs]
      have hrest := ih h ha hr hslot
      rw [hs] at hrest
      rw [states, List.forall_mem_cons, hrun]
      exact (and_iff_right ⟨ha, hr⟩).trans hrest
    | some worker =>
      have htake := h.take hs
      have hrun : t.runUntilIdle body.exec =
          (body.exec { t with slot := none }).putBack worker := by
        simp [runUntilIdle, hs]
      obtain ⟨hanswers, -, hput⟩ := putBack_keeps (body.exec { t with slot := none }) worker
      have h' : ((body.exec { t with slot := none }).putBack worker).Framed [] :=
        (framed_exec body htake).putBack
      have hleaves := last_exec (.run body .done) t
      simp only [exec, hrun, lastCall, hs, Option.isSome_some, Option.none_or] at hleaves
      have ha' : ((body.exec { t with slot := none }).putBack worker).Answered ↔
          body.Matched false := by
        rw [answered_congr hanswers, answered_exec body htake (List.cons_ne_nil _ _)]
        exact and_iff_right ha
      have hr' : ((body.exec { t with slot := none }).putBack worker).Registered ↔
          body.lastCall false ≠ some false := by
        rw [registered_iff h' hslot hleaves, hput]
        simp
      rw [states, List.forall_mem_cons, hrun, ha', hr', Option.isSome_some, WellNested, and_assoc]
      refine and_congr_right fun hm => and_congr_right fun hl => ?_
      have hrest := ih h' (ha'.2 hm) (hr'.2 hl) (slot_eq h' (hr'.2 hl))
      rw [hput] at hrest
      exact hrest

end WorkerCalls

/-- After each outermost call, every deregister that was called with a live registration has
returned `Ok`, and the thread has the entry of its last register, or none where a deregister came
last: exactly if, in each outermost run, every deregister comes after a register of the same run
with no deregister of it in between, and the last call of register or deregister is not a
deregister. -/
theorem registration_faithful_iff (cs : WorkerCalls) :
    (∀ t ∈ cs.states .new, t.Answered ∧ t.Registered) ↔ cs.WellNested false :=
  WorkerCalls.states_iff cs ⟨rfl, .nil, nofun⟩ nofun rfl

/-- A task of a run deregisters the thread. -/
def deregisterInRun : WorkerCalls := .register (.run (.deregister .done) .done)

/-- A task of a run registers the thread again and deregisters it. -/
def renewInRun : WorkerCalls := .register (.run (.register (.deregister .done)) .done)

/-- In the first case the deregister fails though the thread is registered; in the second one the
thread has its first entry again after the run. -/
theorem registration_left_behind :
    (∃ t ∈ deregisterInRun.states .new, t.answers = [(true, .errWorkerNotRegistered)] ∧
      ¬ t.Answered) ∧
    ∃ t ∈ renewInRun.states .new, t.last = some none ∧ t.entries = [1] ∧ ¬ t.Registered := by
  constructor
  · refine ⟨_, .tail _ (.head _), rfl, fun h => ?_⟩
    exact absurd (h _ (.head _) rfl) (by decide)
  · exact ⟨_, .tail _ (.head _), rfl, rfl, fun h => List.cons_ne_nil _ _ h⟩

end Hypertile
