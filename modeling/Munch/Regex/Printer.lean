import Munch.Regex.Basic

set_option autoImplicit false

/-! # Expressions as text

The text of an expression is its tree in parentheses: the name of the node, then its bytes, bounds
or operands, each after a space. Bounds are decimal numbers; a single byte is escaped. -/

namespace Munch

/-- Bounds in decimal, with a separator between them. -/
def ByteRange.decimal (r : ByteRange) (separator : String) : String :=
  toString r.lo.toNat ++ separator ++ toString r.hi.toNat

namespace Regex

/-- A node without operands that are expressions. -/
def leafText (name : String) (arguments : List String) : String :=
  "(" ++ name ++ String.join (arguments.map (" " ++ ·)) ++ ")"

mutual

/-- The text of an expression. -/
def text : Regex → String
  | .byte b => leafText "Char" [Byte.escaped b]
  | .range r => leafText "Range" [r.decimal " "]
  | .oneOf c => leafText "Class" (c.set.ranges.map (·.decimal "-"))
  | .cat items => "(Cat" ++ operands items ++ ")"
  | .alt a b => "(Alt " ++ text a ++ " " ++ text b ++ ")"
  | .star r => "(Star " ++ text r ++ ")"
  | .plus r => "(Plus " ++ text r ++ ")"
  | .maybe r => "(Maybe " ++ text r ++ ")"
  | .pattern r => "(Match " ++ text r ++ ")"
  | .either a b => "(AltMatch " ++ text a ++ " " ++ text b ++ ")"
  | .finish => leafText "Eos" []

/-- The texts of a list of expressions, each after a space. -/
def operands : List Regex → String
  | [] => ""
  | r :: rest => " " ++ text r ++ operands rest

end

end Regex

end Munch
