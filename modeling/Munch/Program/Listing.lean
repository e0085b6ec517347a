import Munch.Program.Basic

set_option autoImplicit false

/-! # Programs as text

A program has two texts. `serialize` writes one instruction a line, its name and its operands as
decimal numbers, and can be read back. `listing` is meant to be looked at: it numbers the
instructions and shows what bytes stand for. -/

namespace Munch

namespace Op

/-- The operands of an instruction as decimal numbers. -/
def operands : Inst → List Nat
  | .consume r | .branch r => [r.lo.toNat, r.hi.toNat]
  | .split x y => [x, y]
  | .jump x => [x]
  | .accept id => [id]
  | .fail => []

/-- The line of an instruction. -/
def line (i : Inst) : String := i.name ++ String.join (i.operands.map fun n => " " ++ toString n)

/-- A byte as a number, followed by what it stands for. -/
def describeByte (b : UInt8) : String := toString b.toNat ++ " (" ++ Byte.escaped b ++ ")"

/-- The operands of an instruction as they are shown in a listing. -/
def describeOperands : Inst → String
  | .consume r | .branch r =>
    if r.isSingle then " " ++ describeByte r.lo
    else " " ++ describeByte r.lo ++ ", " ++ describeByte r.hi
  | .split x y => " " ++ toString x ++ ", " ++ toString y
  | .jump x => " " ++ toString x
  | .accept id => " " ++ toString id
  | .fail => ""

/-- A string with spaces after it, up to a width. -/
def padRight (width : Nat) (s : String) : String :=
  s ++ String.ofList (List.replicate (width - s.length) ' ')

/-- A number in decimal, with a zero before it if it has one digit. -/
def twoDigits (n : Nat) : String := if n < 10 then "0" ++ toString n else toString n

/-- An instruction as it is shown in a listing. -/
def describe (i : Inst) : String := padRight 6 i.name ++ i.describeOperands

end Op

namespace Program

/-- The text of a program, from which it can be read back. -/
def serialize (p : Program) : String :=
  String.join (p.insts.toList.map fun i => i.line ++ "\n")

/-- A program as it is shown: its instructions in braces, each with its offset. -/
def listing (p : Program) : String :=
  "\x7b\n" ++
    String.join (p.insts.toList.zipIdx.map fun e =>
      "    " ++ Op.twoDigits e.2 ++ " " ++ e.1.describe ++ "\n") ++
    "\x7d"

end Program

end Munch
