import Munch.Byte.Basic

set_option autoImplicit false

/-! # Lines and columns

A position is a line and a column, both counted from one; a column counts bytes, and a line feed
belongs to the line that it ends. `lineColumn` finds the position of an offset from the text alone,
and a `Tracker` finds it by walking on from the last offset it was asked for. Numbers are unsigned
64-bit words: past the largest they start again at zero. -/

namespace Munch

/-- The number of words of 64 bits. -/
def wordCount : Nat := UInt64.size

/-- The largest word of 64 bits. -/
def maxWord : Nat := UInt64.size - 1

/-- The sum of two numbers as a word. -/
def addWord (a b : Nat) : Nat := (a + b) % wordCount

/-- A line and a column, counted from one. -/
structure Position where
  line : Nat
  column : Nat
deriving DecidableEq, Repr

/-- The offset at which the last line of a text starts. -/
def lastLineStart (text : Bytes) : Nat :=
  text.length - (text.reverse.takeWhile (· != Byte.newline)).length

/-- The position of the byte at an offset; past the end, columns go on on the last line. -/
def lineColumn (text : Bytes) (offset : Nat) : Position where
  line := 1 + (text.take offset).count Byte.newline
  column := addWord (offset - lastLineStart (text.take offset)) 1

/-- An offset together with its position. -/
structure Tracker where
  offset : Nat
  line : Nat
  column : Nat
deriving DecidableEq, Repr

namespace Tracker

/-- The start of a text. -/
def start : Tracker := ⟨0, 1, 1⟩

/-- The position of the tracker's offset. -/
def position (t : Tracker) : Position := ⟨t.line, t.column⟩

/-- The tracker one byte further, past the byte `b`. -/
def advance (t : Tracker) (b : UInt8) : Tracker :=
  if b == Byte.newline then ⟨addWord t.offset 1, addWord t.line 1, 1⟩
  else ⟨addWord t.offset 1, t.line, addWord t.column 1⟩

/-- The tracker past all of a text. -/
def advanceAll (t : Tracker) (bytes : Bytes) : Tracker := bytes.foldl advance t

/-- The tracker at an offset of a text, walking on from where it is if the offset is not behind
it, and from the start otherwise. -/
def seek (t : Tracker) (text : Bytes) (offset : Nat) : Tracker :=
  let base := if offset < t.offset then start else t
  let passed := text.slice base.offset offset
  let reached := base.advanceAll passed
  ⟨offset, reached.line, addWord reached.column (offset - base.offset - passed.length)⟩

end Tracker

end Munch
