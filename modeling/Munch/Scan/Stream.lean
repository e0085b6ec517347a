import Munch.Source.Basic
import Munch.Table.Basic

set_option autoImplicit false

/-! # Scanning a source

A `Stream` finds the longest match at the cursor of a source, looking ahead as far as the table goes
on, and then moves the cursor past it. It cannot go back: where no pattern matches, the cursor
stays, and a pattern that matches the empty text ends the scan, since the cursor would stay for
ever. An error of the source that shows while looking ahead ends the scan as well. -/

namespace Munch

/-- Why a scan gives no match at the cursor. -/
inductive ScanError where
  /-- No pattern matches. -/
  | unconsumed (u : Unconsumed)
  /-- A pattern matches the empty text, and none a longer one. -/
  | emptyMatch (id tc : Nat) (position : Position)
  /-- An action failed. -/
  | action (text : String)
  /-- The source failed. -/
  | io (text : String)
deriving DecidableEq, Repr

namespace ScanError

/-- The wording of an error. -/
def message : ScanError → String
  | .unconsumed u => u.message
  | .emptyMatch id _ position =>
    "Pattern " ++ toString id ++ " matched the empty string at " ++ toString position.line ++ ":" ++
      toString position.column
  | .action _ => "Lexer action failed"
  | .io _ => "Error reading input"

/-- The wording of what caused an error. -/
def cause? : ScanError → Option String
  | .action text | .io text => some text
  | _ => none

end ScanError

/-- A source being scanned with a table. -/
structure Stream (σ : Type) where
  table : Table
  source : σ
  finished : Bool

namespace Stream

variable {σ : Type}

/-- A source at the start of its scan. -/
def start (table : Table) (source : σ) : Stream σ := ⟨table, source, false⟩

/-- How far a table went on a source: the bytes that were looked at, whether the last of them led to
the error state, and the pattern accepted last with the number of bytes before that. -/
structure Walk where
  bytes : Bytes
  failed : Bool
  longest? : Option (Nat × Nat)
deriving DecidableEq, Repr

variable [ByteSource σ]

/-- Run a table from a state over the bytes of a source after those looked at, at most `limit` of
them. -/
def walkFrom (t : Table) : (limit : Nat) → σ → (state : Nat) → Walk → Walk × σ
  | 0, source, _, w => (w, source)
  | limit + 1, source, state, w =>
    let (byte?, source) := ByteSource.peek source w.bytes.length
    match byte? with
    | none => (w, source)
    | some b =>
      let state := t.next state b
      let bytes := w.bytes ++ [b]
      if state = Table.error then ({ w with bytes, failed := true }, source)
      else
        walkFrom t limit source state
          { w with
            bytes
            longest? := match t.accept? state with
              | some id => some (id, bytes.length)
              | none => w.longest? }

/-- Run a table from its start state over the bytes at the cursor of a source. -/
def walk (t : Table) (source : σ) : Walk × σ :=
  walkFrom t (ByteSource.reach source + 1) source t.start
    ⟨[], false, (t.accept? t.start).map (·, 0)⟩

/-- The stream after its end, with the error that ended it. -/
def finish (s : Stream σ) : Option ScanError × Stream σ :=
  let (error?, source) := ByteSource.takeError s.source
  (error?.map .io, { s with source, finished := true })

/-- The place at which a walk found no match. -/
def unconsumedAt (start : Character) (w : Walk) : Unconsumed :=
  let walked := if w.failed then w.bytes.dropLast else w.bytes
  let last : Tracker :=
    (Tracker.mk start.tc start.position.line start.position.column).advanceAll walked
  ⟨start.tc, last.offset, start.position, last.position, w.bytes⟩

/-- The match of a pattern that a walk found. -/
def matchAt (start : Character) (id : Nat) (bytes : Bytes) : Match :=
  let last : Tracker :=
    (Tracker.mk start.tc start.position.line start.position.column).advanceAll bytes.dropLast
  ⟨id, start.tc, start.position, last.position, bytes⟩

/-- Find the longest match at the cursor, and move the cursor past it. -/
def step (s : Stream σ) : Option (Except ScanError Match) × Stream σ :=
  if s.finished then (none, s)
  else
    let (start?, source) := ByteSource.current s.source
    match start? with
    | none =>
      let (error?, s) := { s with source }.finish
      (error?.map .error, s)
    | some start =>
      let (w, source) := walk s.table source
      match ByteSource.error? source with
      | some _ =>
        let (error?, s) := { s with source }.finish
        (error?.map .error, s)
      | none =>
        match w.longest? with
        | some (id, 0) =>
          (some (.error (.emptyMatch id start.tc start.position)),
            { s with source, finished := true })
        | some (id, length) =>
          let (_, source) := ByteSource.advance source length
          (some (.ok (matchAt start id (w.bytes.take length))), { s with source })
        | none =>
          let u := unconsumedAt start w
          (some (.error (.unconsumed u)),
            { s with source := ByteSource.record source (.noPatternMatched u.start u.fail) })

/-- Move the cursor forward by at most `n` bytes. -/
def skip (s : Stream σ) (n : Nat) : Stream σ :=
  { s with source := (ByteSource.advance s.source n).2 }

end Stream

end Munch
