import Munch.Scan.Match
import Munch.Source.Basic

set_option autoImplicit false

/-! # Actions

An action turns a match into a token. While it does so it may look at bytes around the cursor, which
is at the end of the match, and it may move the cursor, from which the scan then goes on. What an
action asks of the input, and how it goes on with the answer, is a `Reaction`; a `Buffer` answers.
The same action can thus be run on a text in memory and on a source that cannot go back. -/

namespace Munch

/-- What an action asks of the input until it is done. -/
inductive Reaction (ρ : Type) where
  /-- Be done with a result. -/
  | done (result : ρ)
  /-- Ask for the byte at an offset. -/
  | byte (tc : Nat) (next : Option UInt8 → Reaction ρ)
  /-- Ask for one byte after the other from an offset on, as long as the bytes so far, of which the
  latest comes first, call for more, and the input has more. -/
  | bytes (tc : Nat) (more : Bytes → Bool) (next : Bytes → Reaction ρ)
  /-- Ask where the cursor is. -/
  | cursor (next : Nat → Reaction ρ)
  /-- Move the cursor to an offset. -/
  | moveTo (tc : Nat) (next : Reaction ρ)

/-- An input with a cursor, as an action sees it. -/
class Buffer (β : Type) where
  byte : β → Nat → Option UInt8 × β
  bytes : β → Nat → (Bytes → Bool) → Bytes × β
  cursor : β → Nat
  moveTo : β → Nat → β

namespace Reaction

variable {β ρ : Type} [Buffer β]

/-- Run a reaction on a buffer. -/
def run : Reaction ρ → β → ρ × β
  | .done result, b => (result, b)
  | .byte tc next, b => (next (Buffer.byte b tc).1).run (Buffer.byte b tc).2
  | .bytes tc more next, b => (next (Buffer.bytes b tc more).1).run (Buffer.bytes b tc more).2
  | .cursor next, b => (next (Buffer.cursor b)).run b
  | .moveTo tc next, b => next.run (Buffer.moveTo b tc)

end Reaction

/-! ## Texts -/

/-- A text in memory with a cursor, which can be moved anywhere. -/
structure TextBuffer where
  text : Bytes
  cursor : Nat
deriving DecidableEq, Repr

/-- The bytes at the start of a text as long as those so far call for more, put in front of
those. -/
def TextBuffer.takeFrom (more : Bytes → Bool) (sofar : Bytes) : Bytes → Bytes
  | [] => sofar
  | b :: rest => if more sofar then takeFrom more (b :: sofar) rest else sofar

instance : Buffer TextBuffer where
  byte b tc := (b.text[tc]?, b)
  bytes b tc more := (TextBuffer.takeFrom more [] (b.text.drop tc), b)
  cursor b := b.cursor
  moveTo b tc := { b with cursor := tc }

/-! ## Sources -/

/-- A source with its cursor, which can only be moved forward. -/
structure SourceBuffer (σ : Type) where
  source : σ

namespace SourceBuffer

variable {σ : Type} [ByteSource σ]

/-- The bytes of a source after a look-ahead, at most `limit` of them, as long as those so far call
for more, put in front of those. -/
def takeFrom (more : Bytes → Bool) : (limit : Nat) → σ → (lookahead : Nat) → Bytes → Bytes × σ
  | 0, source, _, sofar => (sofar, source)
  | limit + 1, source, lookahead, sofar =>
    if more sofar then
      let (byte?, source) := ByteSource.peek source lookahead
      match byte? with
      | none => (sofar, source)
      | some b => takeFrom more limit source (lookahead + 1) (b :: sofar)
    else (sofar, source)

instance : Buffer (SourceBuffer σ) where
  byte b tc :=
    let cursor := ByteSource.tc b.source
    if tc < cursor then (none, b)
    else
      let (byte?, source) := ByteSource.peek b.source (tc - cursor)
      (byte?, ⟨source⟩)
  bytes b tc more :=
    let cursor := ByteSource.tc b.source
    if tc < cursor then ([], b)
    else
      let (bytes, source) :=
        takeFrom more (ByteSource.reach b.source + 1) b.source (tc - cursor) []
      (bytes, ⟨source⟩)
  cursor b := ByteSource.tc b.source
  moveTo b tc :=
    let cursor := ByteSource.tc b.source
    if tc < cursor then ⟨ByteSource.record b.source (.cannotRewind cursor tc)⟩
    else ⟨(ByteSource.advance b.source (tc - cursor)).2⟩

end SourceBuffer

/-! ## Actions -/

/-- What an action comes to: a token, no token, or an error, and the state that all actions of a
lexer share, as it is afterwards. -/
structure Verdict (σ τ : Type) where
  state : σ
  token : Except String (Option τ)

/-- What is to be done with a match, depending on a state that all actions of a lexer share. -/
abbrev Action (σ τ : Type) := σ → Match → Reaction (Verdict σ τ)

end Munch
