import Munch.Byte.Range

set_option autoImplicit false

/-! # Programs

A program is a list of instructions, run from offset 0. It can be run in two ways, depending on
the instructions that it has.

A program with `consume` or `split` instructions is run by any number of threads at once; there,
`accept` ends a thread. A program without them is deterministic: it has a single thread, made of
blocks

```text
[accept id]
branch lo hi
jump block
...
fail
```

in which `accept` records a match and goes on with its block, and `branch` consumes the byte and
goes on with the `jump` if the byte is in range, and skips the `jump` otherwise. -/

namespace Munch

/-- An instruction, whose jump operands are of type `τ`. -/
inductive Op (τ : Type) where
  /-- Consume one byte of a range, or end the thread. -/
  | consume (r : ByteRange)
  /-- Go on at both operands. -/
  | split (x y : τ)
  /-- Go on at the operand. -/
  | jump (x : τ)
  /-- Accept the pattern of a number. -/
  | accept (id : Nat)
  /-- Consume one byte of a range and go on, or skip the next instruction without consuming. -/
  | branch (r : ByteRange)
  /-- End the thread. -/
  | fail
deriving DecidableEq

/-- An instruction of a finished program. -/
abbrev Inst := Op Nat

namespace Op

variable {τ σ : Type}

/-- An instruction with its jump operands transformed. -/
def map (f : τ → σ) : Op τ → Op σ
  | .consume r => .consume r
  | .split x y => .split (f x) (f y)
  | .jump x => .jump (f x)
  | .accept id => .accept id
  | .branch r => .branch r
  | .fail => .fail

/-- The jump operands of an instruction. -/
def targets : Op τ → List τ
  | .split x y => [x, y]
  | .jump x => [x]
  | _ => []

/-- Whether control can pass to the next instruction without a jump, in a program that is
`deterministic` or not. -/
def fallsThrough (deterministic : Bool) : Op τ → Bool
  | .consume _ | .branch _ => true
  | .accept _ => deterministic
  | .split _ _ | .jump _ | .fail => false

/-- Whether an instruction makes its program one of many threads. -/
def isThreaded : Op τ → Bool
  | .consume _ | .split _ _ => true
  | _ => false

/-- The name of an instruction. -/
def name : Op τ → String
  | .consume _ => "CHAR"
  | .split _ _ => "SPLIT"
  | .jump _ => "JMP"
  | .accept _ => "MATCH"
  | .branch _ => "CHJMP"
  | .fail => "FAIL"

end Op

/-- A list of instructions. -/
structure Program where
  insts : Array Inst
deriving DecidableEq

namespace Program

/-- The number of instructions. -/
def size (p : Program) : Nat := p.insts.size

/-- Whether no instruction needs more than one thread. -/
def isDeterministic (p : Program) : Bool := !p.insts.any Op.isThreaded

/-- The pattern accepted at an offset. -/
def pattern? (p : Program) (pc : Nat) : Option Nat :=
  match p.insts[pc]? with
  | some (.accept id) => some id
  | _ => none

/-- The offsets that accept, each with the number of its pattern. -/
def accepts (p : Program) : List (Nat × Nat) :=
  (List.range p.size).filterMap fun pc => (p.pattern? pc).map (pc, ·)

end Program

end Munch
