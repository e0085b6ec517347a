import Munch.Graph.Basic
import Munch.Program.Basic
import Munch.Table.Basic

set_option autoImplicit false

/-! # Automata as graphs

The graph of a table has a node for each state but the error state, with two borders if it accepts a
pattern, and one edge for all the ranges that lead from a state to another. The graph of a program
has a node for each instruction; edges along which no byte is consumed are dashed. -/

namespace Munch

/-- Gather edges by their targets, in the order in which the targets first occur. -/
def Edges.byTarget (es : Edges) : List (Nat × List ByteRange) :=
  (es.map (·.2)).eraseDups.map fun target =>
    (target, es.filterMap fun e => if e.2 = target then some e.1 else none)

namespace Table

/-- A graph with the node and the edges of a state added. -/
def addState (t : Table) (g : Graph) (state : Nat) : Graph :=
  let name := toString state
  let g := g.node name (match t.accept? state with
    | some id => [("label", name ++ ":" ++ toString id), ("peripheries", "2")]
    | none => [("label", name)])
  (t.edges state).byTarget.foldl (fun g e =>
    g.edge name (toString e.1) [("label", ", ".intercalate (e.2.map ByteRange.quoted))]) g

/-- The graph of a table. -/
def graph (t : Table) : Graph :=
  ((List.range t.size).tail.foldl t.addState
    ((Graph.empty .directed none).setAttribute "rankdir" "LR")).entry (toString t.start)

end Table

namespace Program

/-- The attribute of an edge along which no byte is consumed. -/
def dashed : String × String := ("style", "dashed")

/-- A graph with the node and the edges of an instruction added. -/
def addInst (deterministic : Bool) (g : Graph) (e : Inst × Nat) : Graph :=
  let name := toString e.2
  let next := toString (e.2 + 1)
  match e.1 with
  | .consume r => (g.node name [("label", name)]).edge name next [("label", r.quoted)]
  | .branch r =>
    ((g.node name [("label", name)]).edge name next [("label", r.quoted)]).edge name
      (toString (e.2 + 2)) [dashed, ("label", "else")]
  | .split x y =>
    ((g.node name [("label", name)]).edge name (toString x) [dashed]).edge name (toString y)
      [dashed]
  | .jump x => (g.node name [("label", name)]).edge name (toString x) [dashed]
  | .accept id =>
    let g := g.node name [("label", name ++ ":" ++ toString id), ("peripheries", "2")]
    if deterministic then g.edge name next [dashed] else g
  | .fail => g.node name [("label", name ++ ":fail"), ("shape", "box")]

/-- The graph of a program. -/
def graph (p : Program) : Graph :=
  (p.insts.toList.zipIdx.foldl (addInst p.isDeterministic)
    ((Graph.empty .directed none).setAttribute "rankdir" "LR")).entry "0"

end Program

end Munch
