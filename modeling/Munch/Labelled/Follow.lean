import Munch.Labelled.Basic

set_option autoImplicit false

/-! # Which positions can follow each other

A position follows another one if some match goes from the one directly to the other. Inside a
concatenation, the first positions of an operand follow the last ones of any operand before it, as
long as everything between them can be empty; inside a repetition, the first positions follow the
last ones. Where an optional subtree can be entered, what can come after it can be entered as
well. -/

namespace Munch.Labelled

/-- All pairs of a member of one set and a member of another. -/
def pairs (s t : IndexSet) : List (Nat × Nat) := s.flatMap fun p => t.map fun q => (p, q)

/-- The pairs of positions that meet where one operand of a concatenation ends and another
begins. -/
def catPairs : List Node → List (Nat × Nat)
  | [] => []
  | a :: rest => pairs a.last (Node.firstAll rest) ++ catPairs rest

/-- The pairs of positions that meet at a node, among nodes given by number. -/
def nodePairs (nodes : List Node) (a : Node) : List (Nat × Nat) :=
  match a.shape with
  | .cat => catPairs (a.children.filterMap (nodes[·]?))
  | .star | .plus => pairs a.last a.first
  | _ => []

/-- The set that follows each position, from the pairs of positions that meet. -/
def gather (n : Nat) (met : List (Nat × Nat)) : List IndexSet :=
  (List.range n).map fun p =>
    IndexSet.ofList n (met.filterMap fun e => if e.1 = p then some e.2 else none)

/-- What can come after an optional subtree: the positions outside it that follow its last
ones. -/
def exits (n : Nat) (follow : List IndexSet) (a : Node) : IndexSet :=
  IndexSet.collect n fun q =>
    !a.spans q && a.last.any fun p => (follow[p]?.getD []).contains q

/-- The following sets after an optional subtree was taken into account: wherever it can be entered
from outside, what comes after it can be entered as well. -/
def bypass (n : Nat) (follow : List IndexSet) (a : Node) : List IndexSet :=
  let exit := exits n follow a
  follow.mapIdx fun q set =>
    if !a.spans q && IndexSet.meets set a.first then
      IndexSet.collect n fun i => set.contains i || exit.contains i
    else set

/-- The set of positions that can follow each position. -/
def follow (l : Labelled) : List IndexSet :=
  let n := l.positionCount
  (l.nodes.filter fun a => decide (a.shape = .maybe)).foldl (bypass n)
    (gather n (l.nodes.flatMap (nodePairs l.nodes)))

end Munch.Labelled
