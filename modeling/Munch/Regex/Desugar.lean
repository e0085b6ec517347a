import Munch.Regex.Basic

set_option autoImplicit false

/-! # Expressions without classes

A class of bytes is short for the alternation of its ranges. `desugar` spells every class out, so
that only single bytes and single ranges are left as leaves. -/

namespace Munch

/-- The alternation of one or more ranges, nested to the right. -/
def Regex.altRanges (r : ByteRange) : List ByteRange → Regex
  | [] => ofRange r
  | s :: rest => .alt (ofRange r) (altRanges s rest)

/-- The alternation of the ranges of a class. -/
def ByteClass.spelledOut (c : ByteClass) : Regex :=
  match c.set.ranges, c.nonempty with
  | r :: rest, _ => Regex.altRanges r rest

namespace Regex

mutual

/-- An expression with every class spelled out. -/
def desugar : Regex → Regex
  | .oneOf c => c.spelledOut
  | .byte b => .byte b
  | .range r => .range r
  | .finish => .finish
  | .cat items => .cat (desugarAll items)
  | .alt a b => .alt (desugar a) (desugar b)
  | .either a b => .either (desugar a) (desugar b)
  | .star r => .star (desugar r)
  | .plus r => .plus (desugar r)
  | .maybe r => .maybe (desugar r)
  | .pattern r => .pattern (desugar r)

/-- A list of expressions with every class spelled out. -/
def desugarAll : List Regex → List Regex
  | [] => []
  | r :: rest => desugar r :: desugarAll rest

end

theorem desugarAll_eq_map (items : List Regex) : desugarAll items = items.map desugar := by
  induction items with
  | nil => rfl
  | cons r rest ih => simp [desugarAll, ih]

end Regex

end Munch
