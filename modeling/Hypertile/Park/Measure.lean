import Hypertile.Machine.Ends
import Hypertile.Park.Steps
import Hypertile.Park.Wakeup

/-!
# How far a worker and a producer are

Measures that each step of a thread lowers, and that both the end of a stopped runtime and the rest
of a running one are proved with: what a call of `find_task` has still to try (`FindPc.phase`,
`FindPc.width`), and what a search for an idle worker has still to do (`ProducerPc.small`). A worker
in `run_loop` can take a step of its own unless it is parked without a token (`loopStep_enabled`),
or waits for the lock of `idle_stack`, which a thread about to count holds.
-/

namespace Hypertile

variable {ω π H : Type}

/-- A step that a thread takes of its own: no new task and no new call. -/
def ParkLabel.own : ParkLabel H → Bool
  | .spawn _ | .inject _ | .unparkOneIdle => false
  | _ => true

/-- What `find_task` has still to try, up to the peers. -/
def FindPc.phase : FindPc ω → ℕ
  | .injectorFirst => 4
  | .localDeque => 3
  | .injector | .injectorAgain => 2
  | .stealers => 1
  | .peers _ | .peerAgain .. => 0

/-- The attempts left at the peers. -/
def FindPc.width : FindPc ω → ℕ
  | .peers rest => 2 * rest.length
  | .peerAgain _ rest => 2 * rest.length + 1
  | _ => 0

/-- What a search for an idle worker has still to do, up to the stack. -/
def ProducerPc.small : ProducerPc ω H → ℕ
  | .idle => 0
  | .pop | .unpark _ => 1
  | .load | .lookup _ => 2
  | .push _ | .popCount _ => 3

/-- A place of `find_task` that comes after another is closer to the end. -/
theorem FindNext.lower {pc pc' : FindPc ω} (h : FindNext pc pc') :
    pc'.phase < pc.phase ∨ pc'.phase = pc.phase ∧ pc'.width < pc.width := by
  cases h with
  | peer => exact .inr ⟨rfl, by simp [FindPc.width]⟩
  | retry => exact .inr ⟨rfl, by simp [FindPc.width]; omega⟩
  | peerAgain => exact .inr ⟨rfl, by simp [FindPc.width]⟩
  | _ => exact .inl (by simp [FindPc.phase])

variable [DecidableEq ω]

/-- A producer that takes a step of its own is in a call. -/
theorem ne_idle_of_own {s s' : Parking ω H} {pc pc' : ProducerPc ω H} {a : ParkLabel H}
    (h : producerStep s pc a = some (s', pc')) (hown : a.own = true) : pc ≠ .idle := by
  rintro rfl
  cases a with
  | inject | unparkOneIdle => cases hown
  | _ => cases h

/-- A step of a search for an idle worker shortens it, or takes a worker off the stack. -/
theorem producerStep_lower {s s' : Parking ω H} {pc pc' : ProducerPc ω H} {a : ParkLabel H}
    (h : producerStep s pc a = some (s', pc')) (hown : a.own = true) :
    3 * s'.idleStack.length + pc'.small < 3 * s.idleStack.length + pc.small := by
  have hidle := ne_idle_of_own h hown
  cases producerStep_trans (i := ()) h with
  | inject | unparkOneIdle => exact absurd rfl hidle
  | pop hstack =>
    simp only [hstack, List.length_cons, ProducerPc.small]
    omega
  | _ =>
    simp only [ProducerPc.small]
    omega

/-! ## The lock of `idle_stack` -/

/-- A worker about to count what it has changed of the idle stack. -/
def LoopPc.counts : LoopPc ω H → Bool
  | .markCount | .unmarkCount .. => true
  | _ => false

/-- A thread about to count what it has popped off the idle stack. -/
def ProducerPc.counts : ProducerPc ω H → Bool
  | .popCount _ => true
  | _ => false

section
variable {s q : Parking ω H} {w : ω} {pc pc' : LoopPc ω H} {a : ParkLabel H}

/-- The lock of `idle_stack` in the steps of a worker in `run_loop`. -/
theorem LoopTrans.locked (h : LoopTrans s w pc a q pc') :
    (pc.counts = true → pc'.counts = false → q.locked = false) ∧
      (pc.counts = false → pc'.counts = false → q.locked = s.locked) := by
  cases h with
  | mark | unmark => exact ⟨nofun, nofun⟩
  | markCount | unmarkCount => exact ⟨fun _ _ => rfl, nofun⟩
  | _ => exact ⟨nofun, fun _ _ => rfl⟩

/-- The lock of `idle_stack` in the steps of a producer. -/
theorem producerStep_locked {pc pc' : ProducerPc ω H} (h : producerStep s pc a = some (q, pc')) :
    (pc.counts = true → pc'.counts = false → q.locked = false) ∧
      (pc.counts = false → pc'.counts = false → q.locked = s.locked) := by
  cases producerStep_trans (i := ()) h with
  | popCount => exact ⟨fun _ _ => rfl, nofun⟩
  | pop => exact ⟨nofun, nofun⟩
  | _ => exact ⟨nofun, fun _ _ => rfl⟩

end

/-! ## Who can go on -/

/-- An attempt of `find_task` can be made, unless the next peer is the worker itself. -/
theorem find_isSome (s : Parking ω H) (w : ω) (pc : FindPc ω) :
    ∃ a, a.own = true ∧ (loopStep s w (.find pc) a).isSome = true := by
  cases pc with
  | injectorFirst | injector | injectorAgain =>
    exact ⟨.attempt (.batch 0), rfl, by simp [loopStep, Parking.attempt, Parking.stealInjector]⟩
  | localDeque | peerAgain => exact ⟨.attempt (.batch 0), rfl, by simp [loopStep, Parking.attempt]⟩
  | stealers => exact ⟨.start 0, rfl, rfl⟩
  | peers rest =>
    cases rest with
    | nil => exact ⟨.go, rfl, rfl⟩
    | cons peer rest =>
      by_cases hself : peer = w
      · exact ⟨.go, rfl, by simp [loopStep, hself]⟩
      · exact ⟨.attempt (.batch 0), rfl, by simp [loopStep, Parking.attempt, hself]⟩

/-- A worker past the head of `run_loop` goes on, unless it is parked without a token. -/
theorem loopStep_enabled {s : Parking ω H} (w : ω) {pc : LoopPc ω H} (hfree : s.locked = false)
    (htop : pc ≠ .top) :
    (∃ a, a.own = true ∧ (loopStep s w pc a).isSome = true) ∨ pc = .park ∧ s.token w = false := by
  cases pc with
  | top => exact absurd rfl htop
  | find fpc => exact .inl (find_isSome s w fpc)
  | run => exact .inl ⟨.finish, rfl, rfl⟩
  | register | drain | spin | markCount | unmarkCount =>
    exact .inl ⟨.go, rfl, by simp [loopStep]⟩
  | spinInjector | recheck =>
    exact .inl ⟨.attempt (.batch 0), rfl, by simp [loopStep, Parking.stealInjector]⟩
  | mark | unmark => exact .inl ⟨.go, rfl, by simp [loopStep, hfree]⟩
  | park =>
    cases htoken : s.token w with
    | true => exact .inl ⟨.go, rfl, by simp [loopStep, htoken]⟩
    | false => exact .inr ⟨rfl, rfl⟩

end Hypertile
