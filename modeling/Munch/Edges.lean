import Munch.Byte.Range

set_option autoImplicit false

/-! # Edges labelled with ranges

The edges out of a state of an automaton are ranges of bytes in ascending order, each with the
state that it leads to. -/

namespace Munch

/-- Ranges of bytes, each with the number of a target. -/
abbrev Edges := List (ByteRange × Nat)

namespace Edges

/-- Put an edge in front of others, as one edge with the first of them if their ranges touch and
they lead to the same target. -/
def cons (r : ByteRange) (target : Nat) : Edges → Edges
  | [] => [(r, target)]
  | (s, other) :: rest =>
    if target = other ∧ r.hi.toNat + 1 = s.lo.toNat then (r.hull s, target) :: rest
    else (r, target) :: (s, other) :: rest

/-- Join neighbouring edges whose ranges touch and that lead to the same target. -/
def join : Edges → Edges
  | [] => []
  | (r, target) :: rest => cons r target (join rest)

end Edges

end Munch
