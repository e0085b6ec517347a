import Munch.IndexSet
import Munch.Position
import Munch.Regex.Anchor
import Munch.Regex.Desugar

set_option autoImplicit false

/-! # Expressions with numbered positions

The single bytes, ranges and end marks of an expression are its positions, numbered from left to
right. A `Labelled` expression lists its positions and its nodes, the nodes in postorder, so that
every subtree is a run of nodes and a run of positions; each node knows whether it matches the
empty text, and the positions at which a match of it can begin and end.

Because positions are numbered from left to right, the sets of a node are the sets of its operands
one after the other, which keeps them ascending. -/

namespace Munch

/-- What occupies a position. -/
inductive Leaf where
  | byte (b : UInt8)
  | range (r : ByteRange)
  | finish
deriving DecidableEq

/-- The leaf of a range, which is a single byte if the range is. -/
def Leaf.ofRange (r : ByteRange) : Leaf := if r.isSingle then .byte r.lo else .range r

/-- The bytes that a leaf consumes; an end mark consumes none. -/
def Leaf.span? : Leaf → Option ByteRange
  | .byte b => some (.single b)
  | .range r => some r
  | .finish => none

/-- The kind of a node. -/
inductive Shape where
  | leaf (l : Leaf)
  | cat
  | alt
  | star
  | plus
  | maybe
  | pattern
  | either
deriving DecidableEq

/-- The text of a leaf: its name and its bytes in decimal. -/
def Leaf.describe : Leaf → String
  | .byte b => "Char " ++ toString b.toNat
  | .range r => "Range " ++ toString r.lo.toNat ++ " " ++ toString r.hi.toNat
  | .finish => "Eos"

/-- The text of a kind of node. -/
def Shape.describe : Shape → String
  | .leaf l => l.describe
  | .cat => "Cat"
  | .alt => "Alt"
  | .star => "Star"
  | .plus => "Plus"
  | .maybe => "Maybe"
  | .pattern => "Match"
  | .either => "AltMatch"

/-- A position: what occupies it, the number of its node, and for an end mark the number of the
pattern that it ends. -/
structure Place where
  leaf : Leaf
  node : Nat
  pattern? : Option Nat
deriving DecidableEq

/-- A node: its kind, the numbers of its operands, whether it matches the empty text, the positions
that a match can begin and end with, and its run of positions, from `start` up to `stop`. -/
structure Node where
  shape : Shape
  children : List Nat
  nullable : Bool
  first : IndexSet
  last : IndexSet
  start : Nat
  stop : Nat
deriving DecidableEq

namespace Node

/-- Where a match of several nodes, one after the other, can begin. -/
def firstAll : List Node → IndexSet
  | [] => []
  | a :: rest => a.first ++ if a.nullable then firstAll rest else []

/-- Where a match of several nodes, one after the other, can end. -/
def lastAll : List Node → IndexSet
  | [] => []
  | a :: rest => (if rest.all (·.nullable) then a.last else []) ++ lastAll rest

/-- Whether a position lies in the run of a node. -/
def spans (a : Node) (p : Nat) : Bool := a.start ≤ p && p < a.stop

end Node

namespace Labelling

/-- The numbers that the next node, position and pattern get. -/
structure Mark where
  node : Nat
  position : Nat
  pattern : Nat

/-- The labelled form of a subtree: the nodes below its root, the root and its number, its
positions, and how many patterns it holds. -/
structure Piece where
  below : List Node
  root : Node
  number : Nat
  places : List Place
  patterns : Nat

/-- All nodes of a piece. -/
def Piece.nodes (p : Piece) : List Node := p.below ++ [p.root]

/-- The numbers that are next after a piece. -/
def Mark.after (m : Mark) (p : Piece) : Mark :=
  ⟨m.node + p.below.length + 1, m.position + p.places.length, m.pattern + p.patterns⟩

/-- The piece of a leaf that belongs to the pattern `owner`, if it is inside one. -/
def ofLeaf (l : Leaf) (owner : Option Nat) (m : Mark) : Piece where
  below := []
  root := {
    shape := .leaf l
    children := []
    nullable := decide (l = .finish)
    first := [m.position]
    last := [m.position]
    start := m.position
    stop := m.position + 1 }
  number := m.node
  places := [⟨l, m.node, if l = .finish then owner else none⟩]
  patterns := 0

/-- The piece of a node with operands, given all but what depends on the kind of the node. -/
def ofOperands (shape : Shape) (m : Mark) (ps : List Piece) (patterns : Nat)
    (nullable : Bool) (first last : IndexSet) : Piece where
  below := ps.flatMap Piece.nodes
  root := {
    shape
    children := ps.map (·.number)
    nullable
    first
    last
    start := m.position
    stop := m.position + (ps.map (·.places.length)).foldr (· + ·) 0 }
  number := m.node + (ps.map (·.below.length + 1)).foldr (· + ·) 0
  places := ps.flatMap (·.places)
  patterns := (ps.map (·.patterns)).foldr (· + ·) 0 + patterns

/-- The piece of nodes one after the other. -/
def ofCat (m : Mark) (ps : List Piece) : Piece :=
  let roots := ps.map (·.root)
  ofOperands .cat m ps 0 (roots.all (·.nullable)) (Node.firstAll roots) (Node.lastAll roots)

/-- The piece of a choice between two nodes. -/
def ofChoice (shape : Shape) (m : Mark) (a b : Piece) : Piece :=
  ofOperands shape m [a, b] 0 (a.root.nullable || b.root.nullable)
    (a.root.first ++ b.root.first) (a.root.last ++ b.root.last)

/-- The piece of a node with one operand, which may be `optional`. -/
def ofBody (shape : Shape) (m : Mark) (a : Piece) (patterns : Nat) (optional : Bool) : Piece :=
  ofOperands shape m [a] patterns (optional || a.root.nullable) a.root.first a.root.last

/-- The piece of the alternation of one or more ranges. -/
def ofRanges (owner : Option Nat) (m : Mark) (r : ByteRange) : List ByteRange → Piece
  | [] => ofLeaf (.ofRange r) owner m
  | s :: rest =>
    let pr := ofLeaf (.ofRange r) owner m
    ofChoice .alt m pr (ofRanges owner (m.after pr) s rest)

mutual

/-- Label an expression, which belongs to the pattern `owner` if it is inside one. A class is
labelled like the alternation that it stands for. -/
def label (owner : Option Nat) (m : Mark) : Regex → Piece
  | .byte b => ofLeaf (.byte b) owner m
  | .range r => ofLeaf (.range r) owner m
  | .oneOf c =>
    match c.set.ranges, c.nonempty with
    | r :: rest, _ => ofRanges owner m r rest
  | .finish => ofLeaf .finish owner m
  | .cat items => ofCat m (labelAll owner m items)
  | .alt a b =>
    let pa := label owner m a
    ofChoice .alt m pa (label owner (m.after pa) b)
  | .either a b =>
    let pa := label owner m a
    ofChoice .either m pa (label owner (m.after pa) b)
  | .star r => ofBody .star m (label owner m r) 0 true
  | .plus r => ofBody .plus m (label owner m r) 0 false
  | .maybe r => ofBody .maybe m (label owner m r) 0 true
  | .pattern r =>
    ofBody .pattern m (label (some m.pattern) { m with pattern := m.pattern + 1 } r) 1 false

/-- Label expressions one after the other. -/
def labelAll (owner : Option Nat) (m : Mark) : List Regex → List Piece
  | [] => []
  | r :: rest =>
    let p := label owner m r
    p :: labelAll owner (m.after p) rest

end

end Labelling

/-- An expression with its nodes in postorder, its positions from left to right, and the number of
its patterns. -/
structure Labelled where
  nodes : List Node
  places : List Place
  patterns : Nat
deriving DecidableEq

namespace Labelled

/-- The labelled form of an expression, with the roots and end marks that are missing. -/
def ofRegex (r : Regex) : Labelled :=
  let p := Labelling.label none ⟨0, 0, 0⟩ r.desugar.anchor
  ⟨p.nodes, p.places, p.patterns⟩

/-- The number of the root, which is the last node. -/
def root (l : Labelled) : Nat := l.nodes.length - 1

/-- The number of positions. -/
def positionCount (l : Labelled) : Nat := l.places.length

/-- The pattern that the end mark at a position ends. -/
def pattern? (l : Labelled) (p : Nat) : Option Nat := l.places[p]?.bind (·.pattern?)

/-- The position of the last end mark of a pattern, or the largest word if it has none of its
own. -/
def endOf (l : Labelled) (pattern : Nat) : Nat :=
  (((List.range l.positionCount).filter fun p => l.pattern? p == some pattern).getLast?).getD
    maxWord

/-- The position of the end mark of each pattern, by number. -/
def ends (l : Labelled) : List Nat := (List.range l.patterns).map l.endOf

/-- The positions that a match can begin with. -/
def start (l : Labelled) : IndexSet := (l.nodes.getLast?.map (·.first)).getD []

/-- The bytes that the leaf at a position consumes. -/
def span? (l : Labelled) (p : Nat) : Option ByteRange := l.places[p]?.bind (·.leaf.span?)

end Labelled

end Munch
