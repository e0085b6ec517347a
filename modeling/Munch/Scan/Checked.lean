import Munch.Program.Checked
import Munch.Scan.Scanner

set_option autoImplicit false

/-! # Scanning with every access checked

An engine that runs a program can be trapped by it. A step of a scan with such an engine returns
what `Scanner.step` returns, or the trap. A table traps nothing. -/

namespace Munch

/-- An engine whose accesses are checked. -/
class CheckedEngine (ε : Type) extends Engine ε where
  checkedFind : ε → Bytes → Nat → Except Trap (Finding × ε)

instance : CheckedEngine Table where
  checkedFind t text tc := .ok (Engine.find t text tc)

/-- Find the longest match of a text from a cursor on, with the lists of a simulator. -/
def Checked.find (s : Simulator) (text : Bytes) (tc : Nat) : Except Trap (Finding × Simulator) :=
  (run s.program s.threads text tc).map fun out => (out.2, { s with threads := out.1 })

instance : CheckedEngine Simulator := ⟨Checked.find⟩

instance : CheckedEngine Runner where
  checkedFind r text tc := (Checked.follow r.program text tc).map fun finding => (finding, r)

namespace Scanner

variable {ε : Type} [CheckedEngine ε]

/-- Find the longest match at a cursor, as `step` does, unless that traps. -/
def checkedStep (s : Scanner ε) (tc : Nat) :
    Except Trap (Option (Except Unconsumed Match) × Scanner ε) :=
  if s.finished then .ok (none, s)
  else if s.text.length ≤ tc then .ok (none, s.finish tc)
  else (CheckedEngine.checkedFind s.engine s.text tc).map (s.conclude tc)

/-- What a scan of a text returns at a cursor, after steps at some other cursors. -/
def checkedAnswer (s : Scanner ε) : List Nat → Nat → Except Trap (Option (Except Unconsumed Match))
  | [], tc => (s.checkedStep tc).map Prod.fst
  | c :: before, tc => (s.checkedStep c).bind fun out => out.2.checkedAnswer before tc

end Scanner

end Munch
