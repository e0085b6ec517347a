import Munch.Regex.Basic

set_option autoImplicit false

/-! # Patterns with their ends marked

An automaton is built from a set of complete patterns. `anchor` makes any expression into one: what
is not below an `either` becomes a `pattern`, and every such pattern ends with `finish`. -/

namespace Munch.Regex

/-- An expression with an end mark, unless it has one already. -/
def terminate : Regex → Regex
  | .finish => .finish
  | .cat items =>
    if items.getLast? = some .finish then .cat items else .cat [.cat items, .finish]
  | r => .cat [r, .finish]

/-- A set of patterns with the roots and end marks that are missing. -/
def anchor : Regex → Regex
  | .either a b => .either (anchor a) (anchor b)
  | .pattern r => .pattern (terminate r)
  | r => .pattern (terminate r)

end Munch.Regex
