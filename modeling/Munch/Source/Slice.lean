import Munch.Source.Basic

set_option autoImplicit false

/-! # Texts as sources -/

namespace Munch

/-- A text in memory, which never fails. -/
structure Slice where
  text : Bytes
  tracker : Tracker
  started : Bool
  journal : List Event
deriving DecidableEq, Repr

namespace Slice

/-- A text with the cursor at its start. -/
def ofText (text : Bytes) : Slice := ⟨text, .start, false, []⟩

/-- The byte under the cursor. -/
def current (s : Slice) : Option Character × Slice :=
  ((s.text[s.tracker.offset]?).map fun b => ⟨b, s.tracker.offset, s.tracker.position⟩,
    { s with started := true })

/-- The byte at the sum of the cursor and a look-ahead, as a word. -/
def peek (s : Slice) (lookahead : Nat) : Option UInt8 × Slice :=
  (s.text[addWord s.tracker.offset lookahead]?, { s with started := true })

/-- Move the cursor forward by at most `n` bytes. -/
def advance (s : Slice) (n : Nat) : Bool × Slice :=
  let tracker :=
    s.tracker.advanceAll (s.text.slice s.tracker.offset (s.tracker.offset + n))
  (tracker.offset < s.text.length, { s with tracker, started := true })

instance : ByteSource Slice where
  current := current
  peek := peek
  advance := advance
  tc s := s.tracker.offset
  started := started
  error? _ := none
  takeError s := (none, s)
  reach s := s.text.length - s.tracker.offset
  journal := journal
  record s e := { s with journal := s.journal ++ [e] }

end Slice

end Munch
