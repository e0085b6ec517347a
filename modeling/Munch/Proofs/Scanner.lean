import Munch.Proofs.Tracker
import Munch.Scan.Scanner

set_option autoImplicit false

/-! # Fresh scans

What the first step of a scan returns depends on its engine only by what the engine finds at the
cursor (`Scanner.step_start`). -/

namespace Munch

namespace Scanner

/-- What a fresh scan reports, if its engine found something at a cursor. -/
def report (text : Bytes) (tc : Nat) (found : Finding) : Except Unconsumed Match :=
  match found.longest? with
  | some (id, stop) => .ok (matchAt text .start id tc stop).1
  | none => .error (unconsumedAt text .start tc found.fail).1

theorem stop_matchAt {text : Bytes} {id tc stop : Nat} (htc : tc ≤ stop)
    (hstop : stop ≤ text.length) : (matchAt text .start id tc stop).1.stop = stop := by
  have hlength := text.length_slice_eq_min tc stop
  show tc + (text.slice tc stop).length = stop
  omega

variable {ε : Type}

theorem conclude_start (engine : ε) (text : Bytes) (tc : Nat) (found : Finding × ε) :
    ((start engine text).conclude tc found).1 = some (report text tc found.1) := by
  unfold conclude start report
  cases found.1.longest? <;> rfl

variable [Engine ε]

/-- A fresh scan has nothing to report at or past the end of its text, and what its engine finds
    before that. -/
theorem step_start (engine : ε) (text : Bytes) (tc : Nat) : ((start engine text).step tc).1 =
    if text.length ≤ tc then none else some (report text tc (Engine.find engine text tc).1) := by
  have hfinished : ¬ (start engine text).finished = true := Bool.false_ne_true
  have htext : (start engine text).text = text := rfl
  rw [step, if_neg hfinished, htext]
  by_cases hend : text.length ≤ tc
  · rw [if_pos hend, if_pos hend]
  · rw [if_neg hend, if_neg hend]
    exact conclude_start engine text tc _

/-- Engines that find the same at a cursor are reported in the same way. -/
theorem step_congr {ε' : Type} [Engine ε'] {engine : ε} {engine' : ε'} {text : Bytes} {tc : Nat}
    (h : (Engine.find engine text tc).1 = (Engine.find engine' text tc).1) :
    ((start engine text).step tc).1 = ((start engine' text).step tc).1 := by
  rw [step_start, step_start, h]

end Scanner

end Munch
