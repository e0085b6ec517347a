import Munch.Event
import Munch.Pattern.Parser

set_option autoImplicit false

/-! # Parsing with a cursor

The parser of `Pattern.Parser` works on the rest of a pattern. Here it works on the whole pattern,
with a cursor that is moved over it. Nothing keeps the cursor inside the pattern or makes it move:
the bytes at it are looked up, and the rest of the pattern that is traced where a production is
entered is cut out, which traps if the cursor is past the end. What a production does not end by
itself, its loops and the productions that it enters, is given a number of turns and is spent when
they are used up.

A run logs every production that it enters with the cursor there, what it traces, and for every
production that succeeds where the cursor was before and after it. -/

namespace Munch.Pattern

namespace Cursor

/-- A production that succeeded, and the cursor before and after it. -/
structure Call where
  production : Production
  start : Nat
  stop : Nat
deriving DecidableEq, Repr

/-- What happens during a run. -/
structure Log where
  entries : List Visit
  events : List Event
  calls : List Call

/-- One log after the other. -/
def Log.append (a b : Log) : Log :=
  ⟨a.entries ++ b.entries, a.events ++ b.events, a.calls ++ b.calls⟩

instance : Append Log := ⟨Log.append⟩

instance : EmptyCollection Log := ⟨⟨[], [], []⟩⟩

/-- How a run ends. -/
inductive Outcome (α : Type) where
  /-- It returned a value and left the cursor somewhere. -/
  | returned (value : α) (pos : Nat)
  | failed (e : Failure)
  /-- It cut out a part that begins past the end of the pattern. -/
  | trapped
  /-- It used up its turns. -/
  | spent

/-- What happens during a run, and how it ends. -/
structure Trail (α : Type) where
  log : Log
  outcome : Outcome α

/-- A run from a place of the cursor. -/
def Run (α : Type) := Nat → Trail α

namespace Run

variable {α β : Type}

/-- Leave the cursor where it is. -/
def pure (x : α) : Run α := fun pos => ⟨∅, .returned x pos⟩

/-- Go on from where a run left the cursor, if it returned. -/
def bind (m : Run α) (f : α → Run β) : Run β := fun pos =>
  match m pos with
  | ⟨log, .returned x pos'⟩ => ⟨log ++ (f x pos').log, (f x pos').outcome⟩
  | ⟨log, .failed e⟩ => ⟨log, .failed e⟩
  | ⟨log, .trapped⟩ => ⟨log, .trapped⟩
  | ⟨log, .spent⟩ => ⟨log, .spent⟩

instance : Monad Run where
  pure := Run.pure
  bind := Run.bind

/-- Fail. -/
def raise (f : Fault) : Run α := fun _ => ⟨∅, .failed (.ofFault f)⟩

/-- Run out of turns. -/
def giveUp : Run α := fun _ => ⟨∅, .spent⟩

/-- Add the fault of a surrounding production to a failure. -/
def orFault (m : Run α) (f : Fault) : Run α := fun pos =>
  match m pos with
  | ⟨log, .failed e⟩ => ⟨log, .failed (e.within f)⟩
  | t => t

end Run

section Productions

variable (text : Bytes) (traced : Bool)

/-- Where the cursor is. -/
def here : Run Nat := fun pos => ⟨∅, .returned pos pos⟩

/-- Move the cursor by a byte. -/
def advance : Run Unit := fun pos => ⟨∅, .returned () (pos + 1)⟩

/-- The byte at the cursor. -/
def peek : Run (Option UInt8) := fun pos => ⟨∅, .returned text[pos]? pos⟩

/-- The byte after the one at the cursor. -/
def peekNext : Run (Option UInt8) := fun pos => ⟨∅, .returned text[pos + 1]? pos⟩

/-- Move the cursor over a byte, if it is there. -/
def eat (b : UInt8) : Run Bool := fun pos =>
  if text[pos]? = some b then ⟨∅, .returned true (pos + 1)⟩ else ⟨∅, .returned false pos⟩

/-- Log that a production is entered. If the parser is traced, the rest of the pattern is cut
out. -/
def enter (p : Production) : Run Unit := fun pos =>
  if traced then
    if pos ≤ text.length then
      ⟨⟨[⟨p, pos⟩], [.enteringProduction p pos (text.drop pos)], []⟩, .returned () pos⟩
    else ⟨⟨[⟨p, pos⟩], [], []⟩, .trapped⟩
  else ⟨⟨[⟨p, pos⟩], [], []⟩, .returned () pos⟩

/-- Log that a production succeeded that was entered with the cursor at `start`. -/
def leave (p : Production) (start : Nat) : Run Unit :=
  fun pos => ⟨⟨[], [], [⟨p, start, pos⟩]⟩, .returned () pos⟩

/-- A call of a production. -/
def call {α : Type} (p : Production) (body : Run α) : Run α := do
  let start ← here
  enter text traced p
  let x ← body
  leave p start
  return x

/-! ## Bytes, escapes and classes -/

/-- Parse an escape. -/
def escape : Run Escape := call text traced .escape do
  let start ← here
  advance
  match ← peek text with
  | none => .raise ⟨.escape, start, .danglingBackslash⟩
  | some c =>
    advance
    return escapeOf c

/-- Parse a byte or an escape inside a class. -/
def classByte : Run Escape := do
  match ← peek text with
  | none =>
    let pos ← here
    .raise ⟨.classItem, pos, .unterminatedClass⟩
  | some c =>
    if c == Byte.ofChar '\\' then escape text traced
    else
      advance
      return .byte c

/-- Parse a class item, adding its bytes to a set. -/
def classItem (set : ByteSet) : Run ByteSet := call text traced .classItem do
  let start ← here
  match ← classByte text traced with
  | .set more => return set.union more
  | .byte lo =>
    let dash ← peek text
    let bound ← peekNext text
    if dash == some (Byte.ofChar '-') && bound.any (· != Byte.ofChar ']') then
      advance
      match ← classByte text traced with
      | .set _ => .raise ⟨.classItem, start, .shorthandAsBound⟩
      | .byte hi => return set.insert lo hi
    else return set.insert lo lo

/-- Parse the items of a class that starts at offset `start`, through the closing bracket, in some
turns. -/
def classItems (start : Nat) : Nat → ByteSet → Run ByteSet
  | 0, _ => .giveUp
  | turns + 1, set => do
    let set ← (classItem text traced set).orFault ⟨.charClass, start, .invalidClass⟩
    match ← peek text with
    | none => .raise ⟨.charClass, start, .unterminatedClass⟩
    | some c =>
      if c == Byte.ofChar ']' then
        advance
        return set
      else classItems start turns set

/-- Parse a class. -/
def charClass (turns : Nat) : Run Regex := call text traced .charClass do
  let start ← here
  advance
  let negated ← eat text (Byte.ofChar '^')
  let set ← classItems text traced start turns .empty
  match Regex.ofSet? (if negated then set.complement else set) with
  | none => .raise ⟨.charClass, start, .classMatchesNothing⟩
  | some r => return r

/-- Parse a single byte, the wildcard, an escape or a class. -/
def char (turns : Nat) : Run Regex := call text traced .char do
  let start ← here
  match ← peek text with
  | none => .raise ⟨.char, start, .unexpectedEnd⟩
  | some c =>
    if c == Byte.ofChar '[' then charClass text traced turns
    else if c == Byte.ofChar '.' then
      advance
      return .any
    else if c == Byte.ofChar '\\' then
      match ← escape text traced with
      | .byte b => return .byte b
      | .set set =>
        match Regex.ofSet? set with
        | none => .raise ⟨.char, start, .escapeMatchesNothing⟩
        | some r => return r
    else if isOperator c then .raise ⟨.char, start, .unexpectedOperator c⟩
    else
      advance
      return .byte c

/-! ## Expressions -/

/-- Apply the repetition operators at the cursor, in some turns. -/
def repeats : Nat → Regex → Run Regex
  | 0, _ => .giveUp
  | turns + 1, r => do
    match ← peek text with
    | none => return r
    | some c =>
      if c == Byte.ofChar '*' then
        advance
        repeats turns (.star r)
      else if c == Byte.ofChar '+' then
        advance
        repeats turns (.plus r)
      else if c == Byte.ofChar '?' then
        advance
        repeats turns (.maybe r)
      else return r

mutual

/-- Parse one or more sequences with bars between them. -/
def alternation : Nat → Run Regex
  | 0 => .giveUp
  | turns + 1 => call text traced .alternation do
    let left ← sequence turns
    if ← eat text (Byte.ofChar '|') then
      let right ← alternation turns
      return .alt left right
    else return left

/-- Parse a sequence of one or more items. -/
def sequence : Nat → Run Regex
  | 0 => .giveUp
  | turns + 1 => call text traced .sequence do
    let start ← here
    let rs ← items turns []
    if rs.isEmpty then .raise ⟨.sequence, start, .expectedExpression⟩
    else return sequenceOf rs

/-- Parse items up to the end of the sequence, after some items. -/
def items : Nat → List Regex → Run (List Regex)
  | 0, _ => .giveUp
  | turns + 1, rs => do
    match ← peek text with
    | none => return rs
    | some c =>
      if c == Byte.ofChar '|' || c == Byte.ofChar ')' then return rs
      else
        let r ← item turns
        items turns (rs ++ [r])

/-- Parse an atom and the repetition operators after it. -/
def item : Nat → Run Regex
  | 0 => .giveUp
  | turns + 1 => call text traced .item do
    let r ← atom turns
    repeats text turns r

/-- Parse a group, or what is not made of other expressions. -/
def atom : Nat → Run Regex
  | 0 => .giveUp
  | turns + 1 => call text traced .atom do
    if (← peek text) == some (Byte.ofChar '(') then group turns else char text traced turns

/-- Parse a group. -/
def group : Nat → Run Regex
  | 0 => .giveUp
  | turns + 1 => call text traced .group do
    let start ← here
    advance
    let inner ← (alternation turns).orFault ⟨.group, start, .invalidGroup⟩
    if ← eat text (Byte.ofChar ')') then return inner
    else .raise ⟨.group, start, .unclosedGroup⟩

end

/-- Parse a pattern from the cursor on. -/
def regex (turns : Nat) : Run Regex := call text traced .regex do
  let body ← (alternation text traced turns).orFault ⟨.regex, 0, .invalidPattern⟩
  match ← peek text with
  | none => return body.complete
  | some c =>
    let pos ← here
    .raise ⟨.regex, pos, .unconsumed c⟩

end Productions

/-- Parse a pattern in some turns. -/
def run (text : Bytes) (traced : Bool) (turns : Nat) : Trail Regex := regex text traced turns 0

/-- The complete pattern or why there is none, if the run comes to an end. -/
def Trail.result? (t : Trail Regex) (text : Bytes) : Option (Except ParseError Regex) :=
  match t.outcome with
  | .returned r _ => some (.ok r)
  | .failed e => some (.error ⟨text, e⟩)
  | .trapped | .spent => none

end Cursor

end Munch.Pattern
