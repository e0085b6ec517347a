import Munch.Byte.Escape
import Munch.Position

set_option autoImplicit false

/-! # Why a pattern is not well formed

A failure is found in some production of the grammar, and every production around it that it makes
fail adds a fault of its own, so a failure is a chain from the outermost fault to the one that
caused it. A `ParseError` is such a chain together with the pattern, from which the position of
each fault is read. -/

namespace Munch.Pattern

/-- The productions of the grammar of patterns. -/
inductive Production where
  | regex
  | alternation
  | sequence
  | item
  | atom
  | group
  | char
  | escape
  | charClass
  | classItem
deriving DecidableEq, Repr

/-- The name of a production. -/
def Production.name : Production → String
  | .regex => "regex"
  | .alternation => "alternation"
  | .sequence => "atomic_ops"
  | .item => "atomic_op"
  | .atom => "atomic"
  | .group => "group"
  | .char => "char"
  | .escape => "escape"
  | .charClass => "class"
  | .classItem => "class_item"

/-- What is wrong at a place of a pattern. -/
inductive Reason where
  /-- A part of the pattern is not well formed. -/
  | invalidPattern
  | invalidGroup
  | invalidClass
  /-- The pattern is complete, but bytes follow it, the first of which is given. -/
  | unconsumed (b : UInt8)
  | expectedExpression
  | unclosedGroup
  | unexpectedEnd
  | unexpectedOperator (b : UInt8)
  | escapeMatchesNothing
  | danglingBackslash
  | unterminatedClass
  | classMatchesNothing
  | shorthandAsBound
deriving DecidableEq, Repr

/-- The wording of a reason. -/
def Reason.message : Reason → String
  | .invalidPattern => "Invalid pattern"
  | .invalidGroup => "Invalid group"
  | .invalidClass => "Invalid character class"
  | .unconsumed b =>
    if b == Byte.ofChar ')' then "Unconsumed input after unmatched ')'"
    else "Unconsumed input starting with '" ++ Byte.escaped b ++ "'"
  | .expectedExpression => "Expected an expression"
  | .unclosedGroup => "Unclosed parenthesis"
  | .unexpectedEnd => "Unexpected end of pattern"
  | .unexpectedOperator b => "Unexpected operator '" ++ Byte.escaped b ++ "'"
  | .escapeMatchesNothing => "Escape matches no bytes"
  | .danglingBackslash => "Dangling backslash"
  | .unterminatedClass => "Unterminated character class"
  | .classMatchesNothing => "Character class matches no bytes"
  | .shorthandAsBound => "Shorthand class used as a range bound"

/-- A production that failed, the offset it failed at, and why. -/
structure Fault where
  production : Production
  offset : Nat
  reason : Reason
deriving DecidableEq, Repr

/-- A fault and the faults that caused it, each caused by the next. -/
structure Failure where
  fault : Fault
  causes : List Fault
deriving DecidableEq, Repr

/-- A fault without a cause. -/
def Failure.ofFault (f : Fault) : Failure := ⟨f, []⟩

/-- A fault caused by a failure. -/
def Failure.within (inner : Failure) (f : Fault) : Failure := ⟨f, inner.fault :: inner.causes⟩

/-- A failure to parse a pattern. -/
structure ParseError where
  text : Bytes
  failure : Failure
deriving DecidableEq, Repr

namespace ParseError

/-- The faults of an error, the most specific first. -/
def chain (e : ParseError) : List Fault := (e.failure.fault :: e.failure.causes).reverse

/-- The most specific fault of an error. -/
def root (e : ParseError) : Fault := e.failure.causes.getLast?.getD e.failure.fault

/-- The position of a fault. -/
def position (e : ParseError) (f : Fault) : Position := lineColumn e.text f.offset

/-- The wording of a single fault. -/
def describe (e : ParseError) (f : Fault) : String :=
  "Regex parse error in " ++ f.production.name ++ " at index " ++ toString f.offset ++
    " (line " ++ toString (e.position f).line ++ ", column " ++ toString (e.position f).column ++
    "): " ++ f.reason.message

/-- The wording of an error: that of each fault, followed by that of its cause. -/
def message (e : ParseError) : String :=
  "\n  caused by: ".intercalate ((e.failure.fault :: e.failure.causes).map e.describe)

/-- The error that directly caused an error. -/
def cause? (e : ParseError) : Option ParseError :=
  match e.failure.causes with
  | [] => none
  | f :: rest => some ⟨e.text, ⟨f, rest⟩⟩

end ParseError

end Munch.Pattern
