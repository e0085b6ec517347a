import Munch.Byte.Escape
import Munch.Position

set_option autoImplicit false

/-! # Matches, and input that nothing matches

What a scan finds at a cursor is either the longest match of a pattern there, or a region of the
input that no pattern matches: from the cursor through the byte at which no pattern could go on. -/

namespace Munch

/-- A longest match: the number of its pattern, where it starts, its bytes, and the positions of
its first and last byte. -/
structure Match where
  id : Nat
  tc : Nat
  first : Position
  last : Position
  bytes : Bytes
deriving DecidableEq, Repr

/-- The offset just past a match. -/
def Match.stop (m : Match) : Nat := m.tc + m.bytes.length

/-- A place at which no pattern matches: where the scan started, where it failed, which is the end
of the input if that ran out, the positions of both, and the bytes from the one through the
other. -/
structure Unconsumed where
  start : Nat
  fail : Nat
  startPosition : Position
  failPosition : Position
  text : Bytes
deriving DecidableEq, Repr

/-- The wording of a place at which no pattern matches. -/
def Unconsumed.message (u : Unconsumed) : String :=
  "Could not match input starting at " ++ toString u.startPosition.line ++ ":" ++
    toString u.startPosition.column ++ ", failing at " ++ toString u.failPosition.line ++ ":" ++
    toString u.failPosition.column ++ ": \"" ++ u.text.escaped ++ "\""

/-- What an automaton finds from a cursor on: the pattern and the end of the longest match, if
there is one, and the offset of the byte at which no pattern could go on. -/
structure Finding where
  longest? : Option (Nat × Nat)
  fail : Nat
deriving DecidableEq, Repr

end Munch
