import Munch.Lexer.Action
import Munch.Token

set_option autoImplicit false

/-! # Scripted actions

An action can be given as data: a list of moves and an outcome. The moves go over the input and keep
a log of what they saw, which becomes the value of the token. -/

namespace Munch

/-- A move of a scripted action. -/
inductive Move where
  /-- Move the cursor by a distance, at most back to the start of the input. -/
  | by (distance : Int)
  /-- Move the cursor to an offset. -/
  | to (tc : Nat)
  /-- Log the byte at a distance from the cursor. -/
  | lookBy (distance : Int)
  /-- Log the byte at an offset. -/
  | lookAt (tc : Nat)
  /-- Log the cursor. -/
  | place
  /-- Move the cursor past the next occurrence of some bytes, or fail if there is none. -/
  | past (bytes : Bytes)
deriving Repr

/-- What a scripted action comes to. -/
inductive Outcome where
  /-- A token, whose type is the number of the pattern unless one is given. -/
  | token (type? : Option Nat)
  /-- No token. -/
  | skip
  /-- An error. -/
  | error (message : String)
deriving Repr

/-- A scripted action. -/
structure Script where
  moves : List Move
  outcome : Outcome
deriving Repr

namespace Script

/-- The text of a byte in a log. -/
def logByte : Option UInt8 → String
  | some b => toString b.toNat
  | none => "-"

/-- The offset at a distance from another, or the start of the input if that is before it. -/
def offsetBy (tc : Nat) (distance : Int) : Nat := ((tc : Int) + distance).toNat

/-- The error of an action that does not find what it looks for after a match. -/
def unterminated (m : Match) : String := "unterminated at " ++ toString m.tc ++ ", " ++ m.first.text

variable {ρ : Type}

/-- Whether the bytes read so far, the latest first, end with some bytes. At least one byte must
have been read, so that no bytes are found before a byte and not at the end of the input. -/
def endsWith (bytes sofar : Bytes) : Bool := !sofar.isEmpty && bytes.reverse.isPrefixOf sofar

/-- Look for some bytes from an offset on, and go on with the offset after them, or with nothing if
the input ends before. -/
def search (bytes : Bytes) (tc : Nat) (next : Option Nat → Reaction ρ) : Reaction ρ :=
  .bytes tc (fun sofar => !endsWith bytes sofar) fun sofar =>
    if endsWith bytes sofar then
      next (some (if bytes.isEmpty then tc else tc + sofar.length))
    else next none

/-- Perform moves, adding to a log. -/
def perform (m : Match) : List Move → List String → Reaction (Except String (List String))
  | [], log => .done (.ok log)
  | .by d :: rest, log => .cursor fun tc => .moveTo (offsetBy tc d) (perform m rest log)
  | .to tc :: rest, log => .moveTo tc (perform m rest log)
  | .lookBy d :: rest, log =>
    .cursor fun tc => .byte (offsetBy tc d) fun b => perform m rest (log ++ [logByte b])
  | .lookAt tc :: rest, log => .byte tc fun b => perform m rest (log ++ [logByte b])
  | .place :: rest, log => .cursor fun tc => perform m rest (log ++ ["@" ++ toString tc])
  | .past bytes :: rest, log =>
    .cursor fun tc =>
      search bytes tc fun found =>
        match found with
        | none => .done (.error (unterminated m))
        | some stop => .moveTo stop (perform m rest log)

end Script

namespace Reaction

/-- A reaction with its result transformed. -/
def map {ρ κ : Type} (f : ρ → κ) : Reaction ρ → Reaction κ
  | .done result => .done (f result)
  | .byte tc next => .byte tc fun b => (next b).map f
  | .bytes tc more next => .bytes tc more fun bs => (next bs).map f
  | .cursor next => .cursor fun tc => (next tc).map f
  | .moveTo tc next => .moveTo tc (next.map f)

end Reaction

namespace Script

/-- What a script makes of a match. -/
def react (s : Script) (m : Match) : Reaction (Except String (Option (Token String))) :=
  (perform m s.moves []).map fun log? =>
    match log? with
    | .error message => .error message
    | .ok log =>
      match s.outcome with
      | .token type? => .ok (some (.ofMatch (type?.getD m.id) (" ".intercalate log) m))
      | .skip => .ok none
      | .error message => .error message

/-- A script as an action that can be called so many times together with all others; from then on it
does nothing but fail. The calls are counted in the state. -/
def limited (limit : Nat) (s : Script) : Action Nat (Token String) := fun calls m =>
  if limit ≤ calls then .done ⟨calls + 1, .error "action limit"⟩
  else (s.react m).map fun token => ⟨calls + 1, token⟩

end Script

end Munch
