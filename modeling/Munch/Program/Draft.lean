import Munch.Program.Basic
import Munch.Regex.Anchor

set_option autoImplicit false

/-! # Programs from expressions

A draft is the code of an expression whose jumps may still be open: an open operand leads to
whatever comes after the expression. Code is placed from a known offset on, and what an operand
leads to is known as soon as the code that comes next is placed; then the operand is closed. The
code of an expression also falls through to what comes after it, unless it ends with `accept`.

The program of a set of patterns is its draft from offset 0 (`Program.ofRegex`), which has no open
operand left because every pattern closes the operands of its body at its `accept`. -/

namespace Munch

mutual

/-- The number of patterns in an expression. -/
def Regex.patternCount : Regex → Nat
  | .byte _ | .range _ | .oneOf _ | .finish => 0
  | .cat items => patternCountAll items
  | .alt a b | .either a b => patternCount a + patternCount b
  | .star r | .plus r | .maybe r => patternCount r
  | .pattern r => patternCount r + 1

/-- The number of patterns in a list of expressions. -/
def Regex.patternCountAll : List Regex → Nat
  | [] => 0
  | r :: rest => patternCount r + patternCountAll rest

end

/-- Instructions whose jump operands may be open. -/
abbrev Draft := List (Op (Option Nat))

namespace Draft

/-- Let every open operand lead to an offset. -/
def close (target : Nat) (d : Draft) : Draft :=
  d.map (Op.map fun o => some (o.getD target))

/-- The number of open operands. -/
def openCount (d : Draft) : Nat := (d.flatMap Op.targets).count none

/-- The code of a choice, placed at an offset, from the code of the left side and that of the right
side, each of which depends on its own offset. -/
def choice (base : Nat) (left right : Nat → Draft) : Draft :=
  let a := left (base + 1)
  let next := base + 1 + a.length
  .split (some (base + 1)) (some (next + 1)) ::
    (close next a ++ .jump none :: right (next + 1))

/-- The code of the alternation of one or more ranges, placed at an offset. -/
def ofRanges (base : Nat) (r : ByteRange) : List ByteRange → Draft
  | [] => [.consume r]
  | s :: rest => choice base (fun _ => [.consume r]) fun next => ofRanges next s rest

mutual

/-- The code of an expression, placed at an offset, with its patterns numbered from `id`. -/
def ofRegex (base id : Nat) : Regex → Draft
  | .byte b => [.consume (.single b)]
  | .range r => [.consume r]
  | .oneOf c =>
    match c.set.ranges, c.nonempty with
    | r :: rest, _ => ofRanges base r rest
  | .finish => []
  | .cat items => ofSequence base id items
  | .alt a b =>
    choice base (fun start => ofRegex start id a) fun next =>
      ofRegex next (id + a.patternCount) b
  | .star r =>
    let body := ofRegex (base + 1) id r
    .split (some (base + 1)) none ::
      (close (base + 1 + body.length) body ++ [.jump (some base)])
  | .plus r =>
    let body := ofRegex base id r
    close (base + body.length) body ++ [.split (some base) none]
  | .maybe r => .split (some (base + 1)) none :: ofRegex (base + 1) id r
  | .pattern r =>
    let body := ofRegex base id r
    close (base + body.length) body ++ [.accept (id + r.patternCount)]
  | .either a b =>
    let left := ofRegex (base + 1) id a
    let next := base + 1 + left.length
    .split (some (base + 1)) (some next) :: (left ++ ofRegex next (id + a.patternCount) b)

/-- The code of expressions one after the other. Only the operands of the last one stay open. -/
def ofSequence (base id : Nat) : List Regex → Draft
  | [] => []
  | [r] => ofRegex base id r
  | r :: s :: rest =>
    let code := ofRegex base id r
    let next := base + code.length
    close next code ++ ofSequence next (id + r.patternCount) (s :: rest)

end

/-- The draft of a set of patterns. A single `accept` is followed by `fail`, since alone it would
be a deterministic program that runs past its end. -/
def ofPatterns (r : Regex) : Draft :=
  match ofRegex 0 0 r with
  | [.accept id] => [.accept id, .fail]
  | d => d

/-- Whether control can pass the end of a draft that is run by threads. -/
def fallsOff (d : Draft) : Bool :=
  match d.getLast? with
  | none => true
  | some i => i.fallsThrough false

end Draft

namespace Program

/-- A draft that cannot be made into a program. -/
inductive DraftError where
  /-- Some operands are open, or control can pass the end. -/
  | unconnected (count : Nat)
deriving DecidableEq, Repr

/-- The wording of an error. -/
def DraftError.message : DraftError → String
  | .unconnected n => "Generated program has " ++ toString n ++ " unconnected instruction(s)"

/-- The program of a draft, if nothing in it is left unconnected. -/
def ofDraft (d : Draft) : Except DraftError Program :=
  if d.openCount = 0 ∧ d.fallsOff = false then
    .ok ⟨(d.map (Op.map fun o => o.getD 0)).toArray⟩
  else .error (.unconnected (d.openCount + d.fallsOff.toNat))

/-- The program of a pattern or a set of patterns, numbered from left to right. -/
def ofRegex (r : Regex) : Except DraftError Program := ofDraft (Draft.ofPatterns r.anchor)

end Program

end Munch
