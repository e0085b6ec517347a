import Munch.Text.Quoted

set_option autoImplicit false

/-! # Graphs for Graphviz

A graph has attributes, nodes in the order in which they were first named, and edges. Its text is in
the DOT language, on one line, with every name and value quoted and attributes in the order of their
names. -/

namespace Munch

/-- Attributes of a graph, a node or an edge, in ascending order of their names. -/
abbrev Attributes := List (String × String)

namespace Attributes

/-- The attributes with one of them set to a value. -/
def set (name value : String) : Attributes → Attributes
  | [] => [(name, value)]
  | (n, v) :: rest =>
    if name < n then (name, value) :: (n, v) :: rest
    else if name = n then (name, value) :: rest
    else (n, v) :: set name value rest

/-- An attribute and its quoted value. -/
def assignment (a : String × String) : String := a.1 ++ "=" ++ Text.quote a.2

/-- The attributes in brackets, or nothing if there are none. -/
def text : Attributes → String
  | [] => ""
  | as => "[" ++ ",".intercalate (as.map assignment) ++ "]"

end Attributes

/-- Whether the edges of a graph have a direction. -/
inductive Direction where
  | undirected
  | directed
deriving DecidableEq, Repr

/-- The word that begins a graph. -/
def Direction.keyword : Direction → String
  | .undirected => "graph"
  | .directed => "digraph"

/-- The sign between the ends of an edge. -/
def Direction.arrow : Direction → String
  | .undirected => "--"
  | .directed => "->"

/-- An edge of a graph. -/
structure Graph.Edge where
  left : String
  right : String
  attributes : Attributes
deriving DecidableEq, Repr

/-- A graph. -/
structure Graph where
  direction : Direction
  id? : Option String
  attributes : Attributes
  nodes : List (String × Attributes)
  edges : List Graph.Edge
deriving DecidableEq, Repr

namespace Graph

/-- A graph without nodes. -/
def empty (direction : Direction) (id? : Option String) : Graph := ⟨direction, id?, [], [], []⟩

/-- The graph with one of its attributes set. -/
def setAttribute (g : Graph) (name value : String) : Graph :=
  { g with attributes := g.attributes.set name value }

/-- A list of nodes with some attributes of one of them set; if it is not there yet, it is added at
the end. -/
def updateNodes (id : String) (changes : List (String × String)) :
    List (String × Attributes) → List (String × Attributes)
  | [] => [(id, changes.foldl (fun as c => as.set c.1 c.2) [])]
  | (i, as) :: rest =>
    if i = id then (i, changes.foldl (fun as c => as.set c.1 c.2) as) :: rest
    else (i, as) :: updateNodes id changes rest

/-- The graph with some attributes of a node set, which is added if it is not there yet. -/
def node (g : Graph) (id : String) (changes : List (String × String)) : Graph :=
  { g with nodes := updateNodes id changes g.nodes }

/-- The graph with an edge added, and with its ends if they are not there yet. -/
def edge (g : Graph) (left right : String) (changes : List (String × String)) : Graph :=
  let g := (g.node left []).node right []
  { g with edges := g.edges ++ [⟨left, right, changes.foldl (fun as c => as.set c.1 c.2) []⟩] }

/-- The graph with an invisible node from which an edge leads into it. -/
def entry (g : Graph) (start : String) : Graph :=
  (g.node "_start" [("style", "invis"), ("shape", "point"), ("label", "")]).edge "_start" start []

/-- The text of a graph. -/
def text (g : Graph) : String :=
  g.direction.keyword ++
    (match g.id? with
      | some id => " " ++ Text.quote id
      | none => "") ++
    " \x7b" ++
    String.join (g.attributes.map fun a => Attributes.assignment a ++ ";") ++
    String.join (g.nodes.map fun n => Text.quote n.1 ++ Attributes.text n.2 ++ ";") ++
    String.join (g.edges.map fun e =>
      Text.quote e.left ++ g.direction.arrow ++ Text.quote e.right ++ Attributes.text e.attributes
        ++ ";") ++
    "\x7d"

end Graph

end Munch
