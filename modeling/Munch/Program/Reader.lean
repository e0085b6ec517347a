import Munch.IndexSet
import Munch.Position
import Munch.Program.Basic
import Munch.Text.Blank
import Munch.Text.Numeral
import Munch.Text.Quoted

set_option autoImplicit false

/-! # Reading programs

Every line that is not blank is an instruction: words separated by blanks, the first of which is
the instruction's name. A text that consists of such lines is accepted if running its program
cannot go wrong: control does not leave the program, every jump has a target, a `branch` is
followed by the `jump` that it can skip and something to skip to, and a deterministic program
cannot run for ever without consuming a byte. -/

namespace Munch

namespace Program

/-- Why a text is not a program. -/
inductive ReadError where
  | empty
  | unknownOpcode (line : Nat) (op : String)
  | arity (line : Nat) (op : String) (expected found : Nat)
  | badOperand (line : Nat) (text : String) (fault : Text.NumeralFault)
  | reversedRange (line : Nat) (lo hi : Nat)
  | badTarget (line target : Nat)
  | loneBranch (line : Nat)
  | missPastEnd (line : Nat)
  | emptyLoop (line : Nat)
  | fallsOffEnd
deriving DecidableEq, Repr

/-- The wording of an error. -/
def ReadError.message : ReadError → String
  | .empty => "Program contains no instructions"
  | .unknownOpcode line op => "Unknown opcode " ++ Text.quote op ++ " on line " ++ toString line
  | .arity line op expected found =>
    op ++ " on line " ++ toString line ++ " takes " ++ toString expected ++
      " operand(s), found " ++ toString found
  | .badOperand line text _ =>
    "Invalid operand " ++ Text.quote text ++ " on line " ++ toString line
  | .reversedRange line lo hi =>
    "Byte range " ++ toString lo ++ "-" ++ toString hi ++ " on line " ++ toString line ++
      " is reversed"
  | .badTarget line target =>
    "Jump target " ++ toString target ++ " on line " ++ toString line ++
      " is past the end of the program"
  | .loneBranch line => "CHJMP on line " ++ toString line ++ " is not followed by JMP"
  | .missPastEnd line => "CHJMP on line " ++ toString line ++ " has no instruction to skip to"
  | .emptyLoop line =>
    "Instruction on line " ++ toString line ++ " can loop without consuming input"
  | .fallsOffEnd => "Program falls through past its last instruction"

/-- The wording of what caused an error. -/
def ReadError.cause? : ReadError → Option String
  | .badOperand _ _ fault => some fault.message
  | _ => none

/-! ## Instructions -/

/-- Read the operands of an instruction, which must be `count` numerals of at most `limit`. -/
def readOperands (line : Nat) (op : String) (count limit : Nat) (args : List (List Char)) :
    Except ReadError (List Nat) :=
  if args.length ≠ count then .error (.arity line op count args.length)
  else args.mapM fun arg =>
    (Text.readNumeral limit arg).mapError (.badOperand line (String.ofList arg))

/-- Read the operands of an instruction as the bounds of a range. -/
def readRange (line : Nat) (op : String) (args : List (List Char)) :
    Except ReadError ByteRange := do
  match ← readOperands line op 2 255 args with
  | [lo, hi] =>
    if h : UInt8.ofNat lo ≤ UInt8.ofNat hi then return ⟨UInt8.ofNat lo, UInt8.ofNat hi, h⟩
    else throw (.reversedRange line lo hi)
  | other => throw (.arity line op 2 other.length)

/-- Read an instruction from the words of its line. -/
def readInst (line : Nat) (op : String) (args : List (List Char)) : Except ReadError Inst := do
  if op = "CHAR" then return .consume (← readRange line op args)
  else if op = "CHJMP" then return .branch (← readRange line op args)
  else if op = "SPLIT" then
    match ← readOperands line op 2 maxWord args with
    | [x, y] => return .split x y
    | other => throw (.arity line op 2 other.length)
  else if op = "JMP" then
    match ← readOperands line op 1 maxWord args with
    | [x] => return .jump x
    | other => throw (.arity line op 1 other.length)
  else if op = "MATCH" then
    match ← readOperands line op 1 maxWord args with
    | [id] => return .accept id
    | other => throw (.arity line op 1 other.length)
  else if op = "FAIL" then
    let _ ← readOperands line op 0 maxWord args
    return .fail
  else throw (.unknownOpcode line op)

/-- The lines of a text that are not blank, each with its number from one and its words. -/
def instructionLines (text : String) : List (Nat × List Char × List (List Char)) :=
  (Text.lines text.toList).zipIdx.filterMap fun e =>
    match Text.words e.1 with
    | [] => none
    | op :: args => some (e.2 + 1, op, args)

/-- Read the instructions of a text, each with the number of its line. -/
def readInsts (text : String) : Except ReadError (List (Nat × Inst)) :=
  (instructionLines text).mapM fun e => do
    return (e.1, ← readInst e.1 (String.ofList e.2.1) e.2.2)

/-! ## Checks -/

/-- The offset reached from `pc` without consuming a byte in a deterministic program, taking a
`branch` as one that misses. -/
def emptyNext (p : Program) (pc : Nat) : Option Nat :=
  match p.insts[pc]? with
  | some (.accept _) => some (pc + 1)
  | some (.jump x) => some x
  | some (.branch _) => some (pc + 2)
  | _ => none

/-- How a path ends: at an offset without a next one or at one that is done, with all offsets of the
path; at an offset that is on the path; or at one that is not in the program. -/
inductive Trail where
  | ended (path : List Nat)
  | closed (pc : Nat)
  | outside
deriving DecidableEq

/-- Follow control from an offset behind a path, up to the offsets that are done. -/
def follow (p : Program) (done path : List Nat) (pc : Nat) : Trail :=
  if _ : pc < p.size then
    if pc ∈ done then .ended path
    else if _ : pc ∈ path then .closed pc
    else
      match p.emptyNext pc with
      | none => .ended (pc :: path)
      | some next => follow p done (pc :: path) next
  else .outside
termination_by IndexSet.missing p.size path
decreasing_by exact IndexSet.missing_cons_lt ‹_› ‹_›

/-- Follow control from some offsets, one after the other. There is no result if it comes to an
offset that is not in the program. -/
def search (p : Program) (done : List Nat) : List Nat → Option (Option Nat)
  | [] => some none
  | start :: starts =>
    match p.follow done [] start with
    | .ended path => search p (path ++ done) starts
    | .closed pc => some (some pc)
    | .outside => none

/-- An offset on a cycle that a deterministic program can run around without consuming a byte.
Control has to stay in the program. -/
def findLoop (p : Program) : Option Nat := (p.search [] (List.range p.size)).join

/-- Check the instruction at an offset, which stands on a line of the text. -/
def checkInst (p : Program) (pc line : Nat) (i : Inst) : Except ReadError Unit :=
  match i.targets.find? (p.size ≤ ·) with
  | some target => .error (.badTarget line target)
  | none =>
    match i with
    | .branch _ =>
      match p.insts[pc + 1]? with
      | some (.jump _) => if p.size ≤ pc + 2 then .error (.missPastEnd line) else .ok ()
      | _ => .error (.loneBranch line)
    | _ => .ok ()

/-- Check each of a list of instructions that starts at an offset. -/
def checkInsts (p : Program) : Nat → List (Nat × Inst) → Except ReadError Unit
  | _, [] => .ok ()
  | pc, (line, i) :: rest => do
    p.checkInst pc line i
    p.checkInsts (pc + 1) rest

/-- Read a program from its text. -/
def read (text : String) : Except ReadError Program := do
  let read ← readInsts text
  let p : Program := ⟨(read.map (·.2)).toArray⟩
  match read.getLast? with
  | none => throw .empty
  | some (_, last) =>
    if last.fallsThrough p.isDeterministic then throw .fallsOffEnd
    p.checkInsts 0 read
    if p.isDeterministic then
      match p.findLoop with
      | some pc => throw (.emptyLoop ((read[pc]?.map (·.1)).getD 0))
      | none => return p
    else return p

end Program

end Munch
