import Munch.Scan.Match

set_option autoImplicit false

/-! # Tokens

A token is a match with a type and a value. Its value does not count when tokens are compared. -/

namespace Munch

/-- A token: its type, its value, and the bytes and positions of the match that it was made of. -/
structure Token (ν : Type) where
  type : Nat
  value : ν
  lexeme : Bytes
  tc : Nat
  first : Position
  last : Position
deriving DecidableEq, Repr

namespace Token

variable {ν : Type}

/-- The token of a match. -/
def ofMatch (type : Nat) (value : ν) (m : Match) : Token ν :=
  ⟨type, value, m.bytes, m.tc, m.first, m.last⟩

/-- Whether two tokens are equal but for their values. -/
def agrees (a b : Token ν) : Bool :=
  a.type == b.type && a.lexeme == b.lexeme && a.tc == b.tc && a.first == b.first &&
    a.last == b.last

end Token

/-- A position in parentheses. -/
def Position.text (p : Position) : String :=
  "(" ++ toString p.line ++ ", " ++ toString p.column ++ ")"

/-- The text of a token with a string as its value. -/
def Token.text (t : Token String) : String :=
  toString t.type ++ " " ++ t.value ++ " " ++ toString t.tc ++ " " ++ t.first.text ++ "-" ++
    t.last.text

end Munch
