import Munch.Event

set_option autoImplicit false

/-! # Sources of bytes

A source delivers bytes one after the other. It has a cursor that only moves forward, and it can be
asked for any byte after the cursor. A source that fails remembers its error and has no more bytes
from then on. -/

namespace Munch

/-- A byte of a source, its offset and its position. -/
structure Character where
  byte : UInt8
  tc : Nat
  position : Position
deriving DecidableEq, Repr

/-- The operations of a source. -/
class ByteSource (σ : Type) where
  /-- The byte under the cursor. -/
  current : σ → Option Character × σ
  /-- The byte so many bytes after the cursor. -/
  peek : σ → Nat → Option UInt8 × σ
  /-- Move the cursor forward, as far as there are bytes, and say whether it is before one. -/
  advance : σ → Nat → Bool × σ
  /-- The offset of the cursor. -/
  tc : σ → Nat
  /-- Whether any byte was asked for yet. -/
  started : σ → Bool
  /-- The error that is remembered. -/
  error? : σ → Option String
  /-- The error that is remembered, which is then forgotten. -/
  takeError : σ → Option String × σ
  /-- A number of bytes that the source cannot exceed from the cursor on. -/
  reach : σ → Nat
  /-- What happened so far. -/
  journal : σ → List Event
  /-- Add something that happened. -/
  record : σ → Event → σ

namespace ByteSource

variable {σ : Type} [ByteSource σ]

/-- Whether there is no byte under the cursor. -/
def atEnd (s : σ) : Bool × σ :=
  let (b, s) := peek s 0
  (b.isNone, s)

end ByteSource

end Munch
