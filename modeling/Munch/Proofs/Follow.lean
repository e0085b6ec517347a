import Munch.Labelled.Follow
import Munch.Proofs.Adjacent
import Munch.Proofs.IndexSet
import Munch.Proofs.PatternSet

set_option autoImplicit false

/-! # The sets of a labelled expression

A piece of a labelled expression `Describes` the expression that it was labelled from: its root
knows the positions that a match can begin and end with, and the pairs of positions that meet at its
nodes are the adjacent ones. Hence the following sets are adjacency (`mem_follow`).

The last step of `Labelled.follow`, which lets optional subtrees be passed by, adds nothing to the
pairs that meet (`follow_eq_gather`). An optional subtree can be empty, and the rules for nodes in
sequence and in repetition take care of that already; `Skips` is what has to be kept for every
optional subtree on the way up to see it. -/

namespace Munch

open Labelling Labelled Regex

/-! ## Passing an optional subtree by -/

/-- Whatever can come after an optional subtree of an expression can come in its place: after every
    position that it can come after, at the beginning, and at the end. -/
structure Skips (s : Nat) (r : Regex) (a : Node) : Prop where
  start_le : s ≤ a.start
  stop_le : a.stop ≤ s + r.width
  first_spans : ∀ q ∈ a.first, a.spans q = true
  last_spans : ∀ q ∈ a.last, a.spans q = true
  adjacent : ∀ p e f q, a.spans p = false → r.Adjacent s p e → e ∈ a.first → f ∈ a.last →
    r.Adjacent s f q → a.spans q = false → r.Adjacent s p q
  first : ∀ e f q, r.First s e → e ∈ a.first → f ∈ a.last → r.Adjacent s f q →
    a.spans q = false → r.First s q
  last : ∀ p e f, a.spans p = false → r.Adjacent s p e → e ∈ a.first → f ∈ a.last →
    r.Last s f → r.Last s p
  nullable : ∀ e f, r.First s e → e ∈ a.first → f ∈ a.last → r.Last s f → r.nullable = true

namespace Skips

variable {s : Nat} {r : Regex} {a : Node}

theorem within (h : Skips s r a) {q : Nat} (hq : a.spans q = true) : r.Within s q := by
  have := h.start_le
  have := h.stop_le
  simp only [Node.spans, Bool.and_eq_true, decide_eq_true_eq, Within] at *
  omega

/-- An optional expression can be passed by as a whole. -/
theorem root (hstart : a.start = s) (hstop : a.stop = s + r.width)
    (hfirst : ∀ q, q ∈ a.first ↔ r.First s q) (hlast : ∀ q, q ∈ a.last ↔ r.Last s q)
    (hnullable : r.nullable = true) : Skips s r a := by
  have hspans : ∀ {q}, r.Within s q → a.spans q = true := by
    intro q hq
    simp only [Node.spans, Within, hstart, hstop, Bool.and_eq_true, decide_eq_true_eq] at *
    exact hq
  have hout : ∀ {q}, a.spans q = false → ¬ r.Within s q := fun h hq => by simp [hspans hq] at h
  exact {
    start_le := Nat.le_of_eq hstart.symm
    stop_le := Nat.le_of_eq hstop
    first_spans := fun q hq => hspans (within_of_first ((hfirst q).mp hq))
    last_spans := fun q hq => hspans (within_of_last ((hlast q).mp hq))
    adjacent := fun _ _ _ _ hp h _ _ _ _ => absurd (within_of_adjacent h).1 (hout hp)
    first := fun _ _ _ _ _ _ h hq => absurd (within_of_adjacent h).2 (hout hq)
    last := fun _ _ _ hp h _ _ _ => absurd (within_of_adjacent h).1 (hout hp)
    nullable := fun _ _ _ _ _ _ => hnullable }

theorem within_first (h : Skips s r a) {e : Nat} (he : e ∈ a.first) : r.Within s e :=
  h.within (h.first_spans e he)

theorem within_last (h : Skips s r a) {f : Nat} (hf : f ∈ a.last) : r.Within s f :=
  h.within (h.last_spans f hf)

section Sequence

variable {rest : List Regex}

theorem head (h : Skips s r a) : Skips s (cat (r :: rest)) a where
  start_le := h.start_le
  stop_le := Nat.le_trans h.stop_le (by simp only [width, widthAll]; omega)
  first_spans := h.first_spans
  last_spans := h.last_spans
  adjacent := by
    intro p e f q hp hpe he hf hfq hq
    rw [adjacent_cat_to_head (h.within_first he)] at hpe
    -- What comes after the subtree is in the head still, or in the rest if the subtree is last.
    rcases (adjacent_cat_from_head (h.within_last hf)).mp hfq with hadj | ⟨hl, hmeet⟩
    · exact .inl (h.adjacent p e f q hp hpe he hf hadj hq)
    · exact .inr (.inl ⟨h.last p e f hp hpe he hf hl, hmeet⟩)
  first := by
    intro e f q hb he hf hfq hq
    rw [first_cat_head (h.within_first he)] at hb
    rcases (adjacent_cat_from_head (h.within_last hf)).mp hfq with hadj | ⟨hl, hmeet⟩
    · exact .inl (h.first e f q hb he hf hadj hq)
    · exact .inr ⟨h.nullable e f hb he hf hl, hmeet⟩
  last := by
    intro p e f hp hpe he hf hl
    rw [adjacent_cat_to_head (h.within_first he)] at hpe
    obtain ⟨hl, hnull⟩ := (last_cat_head (h.within_last hf)).mp hl
    exact .inl ⟨h.last p e f hp hpe he hf hl, hnull⟩
  nullable := by
    intro e f hb he hf hl
    rw [first_cat_head (h.within_first he)] at hb
    obtain ⟨hl, hnull⟩ := (last_cat_head (h.within_last hf)).mp hl
    exact Bool.and_eq_true_iff.mpr ⟨h.nullable e f hb he hf hl, hnull⟩

theorem tail (h : Skips (s + r.width) (cat rest) a) : Skips s (cat (r :: rest)) a where
  start_le := Nat.le_trans (Nat.le_add_right _ _) h.start_le
  stop_le := Nat.le_trans h.stop_le (by simp only [width, widthAll]; omega)
  first_spans := h.first_spans
  last_spans := h.last_spans
  adjacent := by
    intro p e f q hp hpe he hf hfq hq
    rw [adjacent_cat_from_tail (h.within_last hf)] at hfq
    -- What comes before the subtree is in the rest already, or in the head if the subtree is first.
    rcases (adjacent_cat_to_tail (h.within_first he)).mp hpe with ⟨hl, hb⟩ | hadj
    · exact .inr (.inl ⟨hl, h.first e f q hb he hf hfq hq⟩)
    · exact .inr (.inr (h.adjacent p e f q hp hadj he hf hfq hq))
  first := by
    intro e f q hb he hf hfq hq
    rw [adjacent_cat_from_tail (h.within_last hf)] at hfq
    obtain ⟨hnull, hb⟩ := (first_cat_tail (h.within_first he)).mp hb
    exact .inr ⟨hnull, h.first e f q hb he hf hfq hq⟩
  last := by
    intro p e f hp hpe he hf hl
    rw [last_cat_tail (h.within_last hf)] at hl
    rcases (adjacent_cat_to_tail (h.within_first he)).mp hpe with ⟨hl', hb⟩ | hadj
    · exact .inl ⟨hl', h.nullable e f hb he hf hl⟩
    · exact .inr (h.last p e f hp hadj he hf hl)
  nullable := by
    intro e f hb he hf hl
    rw [last_cat_tail (h.within_last hf)] at hl
    obtain ⟨hnull, hb⟩ := (first_cat_tail (h.within_first he)).mp hb
    exact Bool.and_eq_true_iff.mpr ⟨hnull, h.nullable e f hb he hf hl⟩

end Sequence

section Choice

variable {l r : Regex}

theorem left (h : Skips s l a) : Skips s (alt l r) a where
  start_le := h.start_le
  stop_le := Nat.le_trans h.stop_le (by simp only [width]; omega)
  first_spans := h.first_spans
  last_spans := h.last_spans
  adjacent := by
    intro p e f q hp hpe he hf hfq hq
    rw [adjacent_alt_to_left (h.within_first he)] at hpe
    rw [adjacent_alt_from_left (h.within_last hf)] at hfq
    exact .inl (h.adjacent p e f q hp hpe he hf hfq hq)
  first := by
    intro e f q hb he hf hfq hq
    rw [first_alt_left (h.within_first he)] at hb
    rw [adjacent_alt_from_left (h.within_last hf)] at hfq
    exact .inl (h.first e f q hb he hf hfq hq)
  last := by
    intro p e f hp hpe he hf hl
    rw [adjacent_alt_to_left (h.within_first he)] at hpe
    rw [last_alt_left (h.within_last hf)] at hl
    exact .inl (h.last p e f hp hpe he hf hl)
  nullable := by
    intro e f hb he hf hl
    rw [first_alt_left (h.within_first he)] at hb
    rw [last_alt_left (h.within_last hf)] at hl
    exact Bool.or_eq_true_iff.mpr (.inl (h.nullable e f hb he hf hl))

theorem right (h : Skips (s + l.width) r a) : Skips s (alt l r) a where
  start_le := Nat.le_trans (Nat.le_add_right _ _) h.start_le
  stop_le := Nat.le_trans h.stop_le (by simp only [width]; omega)
  first_spans := h.first_spans
  last_spans := h.last_spans
  adjacent := by
    intro p e f q hp hpe he hf hfq hq
    rw [adjacent_alt_to_right (h.within_first he)] at hpe
    rw [adjacent_alt_from_right (h.within_last hf)] at hfq
    exact .inr (h.adjacent p e f q hp hpe he hf hfq hq)
  first := by
    intro e f q hb he hf hfq hq
    rw [first_alt_right (h.within_first he)] at hb
    rw [adjacent_alt_from_right (h.within_last hf)] at hfq
    exact .inr (h.first e f q hb he hf hfq hq)
  last := by
    intro p e f hp hpe he hf hl
    rw [adjacent_alt_to_right (h.within_first he)] at hpe
    rw [last_alt_right (h.within_last hf)] at hl
    exact .inr (h.last p e f hp hpe he hf hl)
  nullable := by
    intro e f hb he hf hl
    rw [first_alt_right (h.within_first he)] at hb
    rw [last_alt_right (h.within_last hf)] at hl
    exact Bool.or_eq_true_iff.mpr (.inr (h.nullable e f hb he hf hl))

end Choice

/-- An optional subtree of a body that is repeated can also be passed by from one round to the
    next. -/
theorem plus (h : Skips s r a) : Skips s (plus r) a where
  start_le := h.start_le
  stop_le := h.stop_le
  first_spans := h.first_spans
  last_spans := h.last_spans
  adjacent := by
    rintro p e f q hp (hpe | ⟨hl, hb⟩) he hf (hfq | ⟨hl', hb'⟩) hq
    · exact .inl (h.adjacent p e f q hp hpe he hf hfq hq)
    · exact .inr ⟨h.last p e f hp hpe he hf hl', hb'⟩
    · exact .inr ⟨hl, h.first e f q hb he hf hfq hq⟩
    · exact .inr ⟨hl, hb'⟩
  first := by
    rintro e f q hb he hf (hfq | ⟨_, hb'⟩) hq
    · exact h.first e f q hb he hf hfq hq
    · exact hb'
  last := by
    rintro p e f hp (hpe | ⟨hl', _⟩) he hf hl
    · exact h.last p e f hp hpe he hf hl
    · exact hl'
  nullable := h.nullable

theorem star (h : Skips s r a) : Skips s (star r) a :=
  { h.plus with nullable := fun _ _ _ _ _ _ => rfl }

theorem maybe (h : Skips s r a) : Skips s (maybe r) a :=
  { h with nullable := fun _ _ _ _ _ _ => rfl }

theorem pattern (h : Skips s r a) : Skips s (pattern r) a := { h with }

theorem either_left {l : Regex} (h : Skips s l a) : Skips s (either l r) a :=
  { h.left (r := r) with }

theorem either_right {l : Regex} (h : Skips (s + l.width) r a) : Skips s (either l r) a :=
  { h.right with }

end Skips

/-! ## Nodes by number -/

/-- Among all nodes, some nodes are numbered one after the other from a number on. -/
def NodesAt (nodes : List Node) (n : Nat) (l : List Node) : Prop :=
  ∀ i a, l[i]? = some a → nodes[n + i]? = some a

theorem NodesAt.left {nodes l l' : List Node} {n : Nat} (h : NodesAt nodes n (l ++ l')) :
    NodesAt nodes n l := by
  intro i a hi
  refine h i a ?_
  rwa [List.getElem?_append_left (List.getElem?_eq_some_iff.mp hi).1]

theorem NodesAt.right {nodes l l' : List Node} {n : Nat} (h : NodesAt nodes n (l ++ l')) :
    NodesAt nodes (n + l.length) l' := by
  intro i a hi
  rw [Nat.add_assoc]
  refine h (l.length + i) a ?_
  rwa [List.getElem?_append_right (Nat.le_add_right _ _), Nat.add_sub_cancel_left]

theorem mem_pairs {t u : IndexSet} {p q : Nat} : (p, q) ∈ pairs t u ↔ p ∈ t ∧ q ∈ u := by
  simp only [pairs, List.mem_flatMap, List.mem_map, Prod.mk.injEq]
  constructor
  · rintro ⟨p', hp, q', hq, rfl, rfl⟩
    exact ⟨hp, hq⟩
  · intro ⟨hp, hq⟩
    exact ⟨p, hp, q, hq, rfl, rfl⟩

/-! ## Pieces -/

/-- A piece has the sets of an expression. -/
structure Describes (P : Piece) (m : Mark) (r : Regex) : Prop where
  number : P.number = m.node + P.below.length
  width : P.places.length = r.width
  nullable : P.root.nullable = r.nullable
  mem_first : ∀ q, q ∈ P.root.first ↔ r.First m.position q
  mem_last : ∀ p, p ∈ P.root.last ↔ r.Last m.position p
  ascending : P.root.first.Ascending
  start : P.root.start = m.position
  stop : P.root.stop = m.position + r.width
  met : ∀ nodes, NodesAt nodes m.node P.nodes → ∀ p q,
    (p, q) ∈ P.nodes.flatMap (nodePairs nodes) ↔ r.Adjacent m.position p q
  skips : ∀ a ∈ P.nodes, a.shape = .maybe → Skips m.position r a

/-- Pieces have the sets of expressions one after the other. -/
inductive DescribesAll : List Piece → Mark → List Regex → Prop
  | nil (m : Mark) : DescribesAll [] m []
  | cons {P : Piece} {ps : List Piece} {m : Mark} {r : Regex} {rest : List Regex}
    (h : Describes P m r) (hrest : DescribesAll ps (m.after P) rest) :
    DescribesAll (P :: ps) m (r :: rest)

namespace DescribesAll

variable {ps : List Piece} {m : Mark} {items : List Regex}

theorem length_nodes (P : Piece) : P.nodes.length = P.below.length + 1 := by simp [Piece.nodes]

theorem sum_nodes (ps : List Piece) :
    (ps.map (·.below.length + 1)).foldr (· + ·) 0 = (ps.flatMap Piece.nodes).length := by
  induction ps with
  | nil => rfl
  | cons P ps ih =>
    rw [List.map_cons, List.foldr_cons, ih, List.flatMap_cons, List.length_append, length_nodes]

theorem sum_width (h : DescribesAll ps m items) :
    (ps.map (·.places.length)).foldr (· + ·) 0 = widthAll items := by
  induction h with
  | nil => rfl
  | cons h _ ih => rw [List.map_cons, List.foldr_cons, ih, h.width, widthAll]

theorem length_places (h : DescribesAll ps m items) :
    (ps.flatMap (·.places)).length = widthAll items := by
  induction h with
  | nil => rfl
  | cons h _ ih => rw [List.flatMap_cons, List.length_append, ih, h.width, widthAll]

theorem nullable (h : DescribesAll ps m items) :
    (ps.map (·.root)).all (·.nullable) = allNullable items := by
  induction h with
  | nil => rfl
  | cons h _ ih => simp [allNullable, h.nullable, ih]

theorem mem_firstAll (h : DescribesAll ps m items) (q : Nat) :
    q ∈ Node.firstAll (ps.map (·.root)) ↔ FirstAll m.position q items := by
  induction h with
  | nil => simp [Node.firstAll, FirstAll]
  | @cons P ps m r rest h _ ih =>
    rw [List.map_cons, Node.firstAll, List.mem_append, h.mem_first, h.nullable, FirstAll]
    rw [Mark.after, h.width] at ih
    by_cases hnull : r.nullable = true
    · simp [hnull, ih]
    · simp [hnull]

theorem ascending (h : DescribesAll ps m items) :
    IndexSet.Ascending (Node.firstAll (ps.map (·.root))) := by
  induction h with
  | nil => exact .nil
  | @cons P ps m r rest h hrest ih =>
    have hfirst := hrest.mem_firstAll
    rw [Mark.after, h.width] at hfirst
    rw [List.map_cons, Node.firstAll]
    refine List.pairwise_append.mpr ⟨h.ascending, ?_, fun p hp q hq => ?_⟩
    · split
      · exact ih
      · exact .nil
    · split at hq
      · have hp := within_of_first ((h.mem_first p).mp hp)
        have hq := within_of_first (r := cat rest) ((hfirst q).mp hq)
        exact Nat.lt_of_lt_of_le hp.2 hq.1
      · simp at hq

theorem mem_lastAll (h : DescribesAll ps m items) (p : Nat) :
    p ∈ Node.lastAll (ps.map (·.root)) ↔ LastAll m.position p items := by
  induction h with
  | nil => simp [Node.lastAll, LastAll]
  | @cons P ps m r rest h hrest ih =>
    rw [List.map_cons, Node.lastAll, List.mem_append, hrest.nullable, LastAll]
    rw [Mark.after, h.width] at ih
    by_cases hnull : allNullable rest = true
    · simp [hnull, ih, h.mem_last]
    · simp [hnull, ih]

/-- The nodes of the pieces are found under their numbers. -/
theorem roots (h : DescribesAll ps m items) {nodes : List Node}
    (hat : NodesAt nodes m.node (ps.flatMap Piece.nodes)) :
    (ps.map (·.number)).filterMap (nodes[·]?) = ps.map (·.root) := by
  induction h with
  | nil => rfl
  | @cons P ps m r rest h _ ih =>
    rw [List.flatMap_cons] at hat
    have hroot : nodes[P.number]? = some P.root := by
      rw [h.number]
      exact hat.left P.below.length P.root (by simp [Piece.nodes])
    have hright := hat.right
    rw [length_nodes] at hright
    simp [hroot, ih hright]

theorem met (h : DescribesAll ps m items) {nodes : List Node}
    (hat : NodesAt nodes m.node (ps.flatMap Piece.nodes)) (p q : Nat) :
    (p, q) ∈ (ps.flatMap Piece.nodes).flatMap (nodePairs nodes) ∨
        (p, q) ∈ catPairs (ps.map (·.root)) ↔
      AdjacentAll m.position p q items := by
  induction h with
  | nil => simp [catPairs, AdjacentAll]
  | @cons P ps m r rest h hrest ih =>
    rw [List.flatMap_cons] at hat
    have hright := hat.right
    rw [length_nodes] at hright
    have hmeet := hrest.mem_firstAll q
    have ih := ih hright
    simp only [Mark.after, h.width] at ih hmeet
    rw [List.flatMap_cons, List.flatMap_append, List.mem_append,
      h.met nodes hat.left, List.map_cons,
      catPairs, List.mem_append, mem_pairs, h.mem_last, hmeet, AdjacentAll, ← ih]
    exact or_assoc.trans (or_congr_right or_left_comm)

theorem skips (h : DescribesAll ps m items) :
    ∀ a ∈ ps.flatMap Piece.nodes, a.shape = .maybe → Skips m.position (cat items) a := by
  induction h with
  | nil => simp
  | @cons P ps m r rest h hrest ih =>
    intro a ha hshape
    rw [List.flatMap_cons, List.mem_append] at ha
    rcases ha with ha | ha
    · exact (h.skips a ha hshape).head
    · have hskips := ih a ha hshape
      rw [Mark.after, h.width] at hskips
      exact hskips.tail

end DescribesAll

/-! ## Labelling -/

namespace Describes

variable {m : Mark} {r : Regex}

theorem leaf {l : Leaf} {owner : Option Nat} (hwidth : r.width = 1)
    (hnullable : r.nullable = decide (l = .finish))
    (hfirst : ∀ q, r.First m.position q ↔ q = m.position)
    (hlast : ∀ p, r.Last m.position p ↔ p = m.position)
    (hadj : ∀ p q, ¬ r.Adjacent m.position p q) : Describes (ofLeaf l owner m) m r where
  number := by simp [ofLeaf]
  width := by simp [ofLeaf, hwidth]
  nullable := hnullable.symm
  mem_first := by simp [ofLeaf, hfirst]
  mem_last := by simp [ofLeaf, hlast]
  ascending := List.pairwise_singleton _ _
  start := rfl
  stop := by simp [ofLeaf, hwidth]
  met := by
    intro nodes _ p q
    simp [ofLeaf, Piece.nodes, nodePairs, hadj]
  skips := by
    intro a ha hshape
    simp only [ofLeaf, Piece.nodes, List.nil_append, List.mem_singleton] at ha
    subst ha
    exact absurd hshape (by simp)

/-- A node has the sets of an expression, if its operands have those of the parts of the expression
    and the node itself adds what is missing. -/
theorem operands {shape : Shape} {ps : List Piece} {patterns : Nat} {nullable : Bool}
    {first last : IndexSet} {items : List Regex} (h : DescribesAll ps m items)
    (hwidth : widthAll items = r.width) (hnullable : nullable = r.nullable)
    (hfirst : ∀ q, q ∈ first ↔ r.First m.position q) (hlast : ∀ p, p ∈ last ↔ r.Last m.position p)
    (hascending : first.Ascending)
    (hmet : ∀ nodes, NodesAt nodes m.node (ps.flatMap Piece.nodes) → ∀ p q,
      (p, q) ∈ (ps.flatMap Piece.nodes).flatMap (nodePairs nodes) ∨
          (p, q) ∈ nodePairs nodes (ofOperands shape m ps patterns nullable first last).root ↔
        r.Adjacent m.position p q)
    (hskips : ∀ a ∈ ps.flatMap Piece.nodes, a.shape = .maybe → Skips m.position r a)
    (hmaybe : shape = .maybe → r.nullable = true) :
    Describes (ofOperands shape m ps patterns nullable first last) m r where
  number := congrArg (m.node + ·) (DescribesAll.sum_nodes ps)
  width := h.length_places.trans hwidth
  nullable := hnullable
  mem_first := hfirst
  mem_last := hlast
  ascending := hascending
  start := rfl
  stop := congrArg (m.position + ·) (h.sum_width.trans hwidth)
  met := by
    intro nodes hat p q
    rw [Piece.nodes, List.flatMap_append, List.mem_append, ← hmet nodes hat.left]
    simp [ofOperands]
  skips := by
    intro a ha hshape
    rw [Piece.nodes, List.mem_append, List.mem_singleton] at ha
    rcases ha with ha | rfl
    · exact hskips a ha hshape
    · exact .root rfl (congrArg (m.position + ·) (h.sum_width.trans hwidth)) hfirst
        hlast (hmaybe hshape)

theorem cat {ps : List Piece} {items : List Regex} (h : DescribesAll ps m items) :
    Describes (ofCat m ps) m (.cat items) := by
  refine operands h rfl h.nullable h.mem_firstAll h.mem_lastAll h.ascending
    (fun nodes hat p q => ?_) h.skips (by simp)
  have hroots : nodePairs nodes (ofCat m ps).root = catPairs (ps.map (·.root)) := by
    rw [← h.roots hat]
    rfl
  show _ ∨ (p, q) ∈ nodePairs nodes (ofCat m ps).root ↔ _
  rw [hroots]
  exact h.met hat p q

section Choice

variable {a b : Regex} {A B : Piece}

theorem pair (ha : Describes A m a) (hb : Describes B (m.after A) b) :
    DescribesAll [A, B] m [a, b] := .cons ha (.cons hb (.nil _))

/-- What meets inside one side of a choice is adjacent in it, and nothing else meets. -/
theorem choice {shape : Shape} (ha : Describes A m a) (hb : Describes B (m.after A) b)
    (hwidth : a.width + b.width = r.width) (hnullable : r.nullable = (a.nullable || b.nullable))
    (hfirst : ∀ q, r.First m.position q ↔
      a.First m.position q ∨ b.First (m.position + a.width) q)
    (hlast : ∀ p, r.Last m.position p ↔ a.Last m.position p ∨ b.Last (m.position + a.width) p)
    (hadj : ∀ p q, r.Adjacent m.position p q ↔
      a.Adjacent m.position p q ∨ b.Adjacent (m.position + a.width) p q)
    (hleft : ∀ n, Skips m.position a n → Skips m.position r n)
    (hright : ∀ n, Skips (m.position + a.width) b n → Skips m.position r n)
    (hpairs : ∀ nodes p q, (p, q) ∉ nodePairs nodes (ofChoice shape m A B).root)
    (hmaybe : shape ≠ .maybe) : Describes (ofChoice shape m A B) m r := by
  have hafter : (m.after A).position = m.position + a.width := by rw [Mark.after, ha.width]
  refine operands (pair ha hb) (by simp [widthAll, ← hwidth]) ?_ (fun q => ?_) (fun p => ?_)
    (List.pairwise_append.mpr ⟨ha.ascending, hb.ascending, fun p hp q hq => ?_⟩)
    (fun nodes hat p q => ?_) (fun n hn hshape => ?_) fun h => absurd h hmaybe
  · rw [hnullable, ha.nullable, hb.nullable]
  · rw [List.mem_append, ha.mem_first, hb.mem_first, hafter, hfirst]
  · rw [List.mem_append, ha.mem_last, hb.mem_last, hafter, hlast]
  · have hp := within_of_first ((ha.mem_first p).mp hp)
    have hq := within_of_first ((hb.mem_first q).mp hq)
    exact Nat.lt_of_lt_of_le hp.2 (hafter ▸ hq.1)
  -- The nodes of the second side are numbered behind those of the first.
  · have hright := hat.right
    rw [DescribesAll.length_nodes, ← Nat.add_assoc] at hright
    have hB := hb.met nodes (NodesAt.left hright) p q
    rw [hafter] at hB
    show _ ∨ (p, q) ∈ nodePairs nodes (ofChoice shape m A B).root ↔ _
    rw [or_iff_left (hpairs nodes p q), List.flatMap_cons, List.flatMap_append, List.mem_append,
      ha.met nodes hat.left, hadj]
    simp [hB]
  · have hn : n ∈ A.nodes ∨ n ∈ B.nodes := by simpa using hn
    rcases hn with hn | hn
    · exact hleft n (ha.skips n hn hshape)
    · exact hright n (hafter ▸ hb.skips n hn hshape)

theorem alt (ha : Describes A m a) (hb : Describes B (m.after A) b) :
    Describes (ofChoice .alt m A B) m (.alt a b) :=
  choice ha hb rfl rfl (fun _ => Iff.rfl) (fun _ => Iff.rfl) (fun _ _ => Iff.rfl)
    (fun _ h => h.left) (fun _ h => h.right) (by simp [nodePairs, ofChoice, ofOperands]) (by simp)

theorem either (ha : Describes A m a) (hb : Describes B (m.after A) b) :
    Describes (ofChoice .either m A B) m (.either a b) :=
  choice ha hb rfl rfl (fun _ => Iff.rfl) (fun _ => Iff.rfl) (fun _ _ => Iff.rfl)
    (fun _ h => h.either_left) (fun _ h => h.either_right)
    (by simp [nodePairs, ofChoice, ofOperands]) (by simp)

end Choice

section Body

variable {a : Regex} {A : Piece} {n : Nat}

/-- A node with one operand has the sets of the operand, but for what it joins itself. -/
theorem body {shape : Shape} {opt : Bool} (ha : Describes A m a) (hwidth : a.width = r.width)
    (hnullable : r.nullable = (opt || a.nullable))
    (hfirst : ∀ q, r.First m.position q ↔ a.First m.position q)
    (hlast : ∀ p, r.Last m.position p ↔ a.Last m.position p)
    (hadj : ∀ nodes p q, r.Adjacent m.position p q ↔ a.Adjacent m.position p q ∨
      (p, q) ∈ nodePairs nodes (ofBody shape m A n opt).root)
    (hskips : ∀ n, Skips m.position a n → Skips m.position r n)
    (hmaybe : shape = .maybe → r.nullable = true) : Describes (ofBody shape m A n opt) m r := by
  refine operands (.cons ha (.nil _)) (by simp [widthAll, hwidth]) ?_ (fun q => ?_) (fun p => ?_)
    ha.ascending (fun nodes hat p q => ?_) (fun n hn hshape => ?_) hmaybe
  · rw [hnullable, ha.nullable]
  · rw [ha.mem_first, hfirst]
  · rw [ha.mem_last, hlast]
  · rw [hadj nodes, ← ha.met nodes hat.left]
    simp [ofBody]
  · exact hskips n (ha.skips n (by simpa using hn) hshape)

theorem repeated {shape : Shape} {opt : Bool} (ha : Describes A m a)
    (hshape : shape = .star ∨ shape = .plus) (p q : Nat) (nodes : List Node) :
    (p, q) ∈ nodePairs nodes (ofBody shape m A n opt).root ↔
      a.Last m.position p ∧ a.First m.position q := by
  rw [← ha.mem_first, ← ha.mem_last, ← mem_pairs]
  rcases hshape with rfl | rfl <;> rfl

theorem star (ha : Describes A m a) : Describes (ofBody .star m A 0 true) m (.star a) :=
  body ha rfl rfl (fun _ => Iff.rfl) (fun _ => Iff.rfl)
    (fun nodes p q => by rw [repeated ha (.inl rfl)]; rfl) (fun _ h => h.star) (by simp)

theorem plus (ha : Describes A m a) : Describes (ofBody .plus m A 0 false) m (.plus a) :=
  body ha rfl rfl (fun _ => Iff.rfl) (fun _ => Iff.rfl)
    (fun nodes p q => by rw [repeated ha (.inr rfl)]; rfl) (fun _ h => h.plus) (by simp)

theorem maybe (ha : Describes A m a) : Describes (ofBody .maybe m A 0 true) m (.maybe a) :=
  body ha rfl rfl (fun _ => Iff.rfl) (fun _ => Iff.rfl)
    (fun nodes p q => by simp [Adjacent, nodePairs, ofBody, ofOperands]) (fun _ h => h.maybe)
    fun _ => rfl

theorem pattern {m' : Mark} (ha : Describes A m' a) (hnode : m'.node = m.node)
    (hposition : m'.position = m.position) :
    Describes (ofBody .pattern m A 1 false) m (.pattern a) := by
  have ha : Describes A m a := by
    constructor
    · rw [← hnode]
      exact ha.number
    · exact ha.width
    · exact ha.nullable
    · rw [← hposition]
      exact ha.mem_first
    · rw [← hposition]
      exact ha.mem_last
    · exact ha.ascending
    · rw [← hposition]
      exact ha.start
    · rw [← hposition]
      exact ha.stop
    · rw [← hposition, ← hnode]
      exact ha.met
    · rw [← hposition]
      exact ha.skips
  exact body ha rfl rfl (fun _ => Iff.rfl) (fun _ => Iff.rfl)
    (fun nodes p q => by simp [Adjacent, nodePairs, ofBody, ofOperands]) (fun _ h => h.pattern)
    (by simp)

end Body

theorem ofRange (r : ByteRange) (owner : Option Nat) (m : Mark) :
    Describes (label owner m (.ofRange r)) m (.ofRange r) := by
  unfold Regex.ofRange
  split
  · exact leaf rfl rfl (fun _ => Iff.rfl) (fun _ => Iff.rfl) fun _ _ => id
  · exact leaf rfl rfl (fun _ => Iff.rfl) (fun _ => Iff.rfl) fun _ _ => id

theorem altRanges (owner : Option Nat) (rs : List ByteRange) : ∀ r m,
    Describes (label owner m (Regex.altRanges r rs)) m (Regex.altRanges r rs) := by
  induction rs with
  | nil => exact fun r m => ofRange r owner m
  | cons s rest ih => exact fun r m => (ofRange r owner m).alt (ih s _)

/-- Labelling an expression without classes gives its sets. -/
theorem label_desugar (r : Regex) : ∀ owner m, Describes (label owner m r.desugar) m r.desugar := by
  induction r with
  | byte b => exact fun owner m => leaf rfl rfl (fun _ => Iff.rfl) (fun _ => Iff.rfl) fun _ _ => id
  | range r => exact fun owner m => leaf rfl rfl (fun _ => Iff.rfl) (fun _ => Iff.rfl) fun _ _ => id
  | finish => exact fun owner m => leaf rfl rfl (fun _ => Iff.rfl) (fun _ => Iff.rfl) fun _ _ => id
  | oneOf c =>
    obtain ⟨r, rest, _, heq⟩ := exists_spelledOut_eq c
    rw [desugar, heq]
    exact fun owner m => altRanges owner rest r m
  | cat items ih =>
    intro owner m
    rw [desugar]
    refine cat ?_
    induction items generalizing m with
    | nil => exact .nil m
    | cons r rest ihrest =>
      exact .cons (ih r (by simp) owner m) (ihrest (fun s hs => ih s (by simp [hs])) _)
  | alt a b iha ihb => exact fun owner m => (iha owner m).alt (ihb owner _)
  | either a b iha ihb => exact fun owner m => (iha owner m).either (ihb owner _)
  | star r ih => exact fun owner m => (ih owner m).star
  | plus r ih => exact fun owner m => (ih owner m).plus
  | maybe r ih => exact fun owner m => (ih owner m).maybe
  | pattern r ih => exact fun owner m => (ih _ _).pattern rfl rfl

end Describes

/-! ## Following sets -/

namespace Labelled

section Gather

variable {n : Nat} {met : List (Nat × Nat)}

theorem getElem?_gather {p : Nat} (hp : p < n) : (gather n met)[p]? =
    some (IndexSet.ofList n (met.filterMap fun e => if e.1 = p then some e.2 else none)) := by
  simp [gather, hp]

theorem mem_gather {p q : Nat} :
    q ∈ (gather n met)[p]?.getD [] ↔ p < n ∧ q < n ∧ (p, q) ∈ met := by
  by_cases hp : p < n
  · rw [getElem?_gather hp, Option.getD_some, IndexSet.mem_ofList, List.mem_filterMap]
    simp [hp]
  · have hnone : (gather n met)[p]? = none := by simp [gather, Nat.not_lt.mp hp]
    simp [hnone, hp]

section Adjacency

variable {r : Regex} (hn : r.width ≤ n) (hmet : ∀ p q, (p, q) ∈ met ↔ r.Adjacent 0 p q)

include hn hmet

theorem mem_gather_iff_adjacent {p q : Nat} :
    q ∈ (gather n met)[p]?.getD [] ↔ r.Adjacent 0 p q := by
  rw [mem_gather, hmet]
  refine ⟨fun h => h.2.2, fun h => ?_⟩
  obtain ⟨⟨_, hp⟩, _, hq⟩ := within_of_adjacent h
  exact ⟨by omega, by omega, h⟩

/-- What an optional subtree is left for follows what the subtree follows. -/
theorem mem_gather_of_mem_exits {a : Node} (h : Skips 0 r a) {p q : Nat} (hp : a.spans p = false)
    (hmeets : IndexSet.meets ((gather n met)[p]?.getD []) a.first = true)
    (hq : q ∈ exits n (gather n met) a) : q ∈ (gather n met)[p]?.getD [] := by
  rw [IndexSet.meets, List.any_eq_true] at hmeets
  obtain ⟨e, he, hfirst⟩ := hmeets
  rw [exits, IndexSet.mem_collect, Bool.and_eq_true, Bool.not_eq_true', List.any_eq_true] at hq
  obtain ⟨_, hspans, f, hf, hfq⟩ := hq
  simp only [List.contains_eq_mem, decide_eq_true_eq] at hfirst hfq
  rw [mem_gather_iff_adjacent hn hmet] at he hfq ⊢
  exact h.adjacent p e f q hp he hfirst hf hfq hspans

/-- Where everything that meets is adjacent, an optional subtree is passed by already. -/
theorem bypass_gather {a : Node} (h : Skips 0 r a) :
    bypass n (gather n met) a = gather n met := by
  refine List.ext_getElem? fun p => ?_
  rw [bypass, List.getElem?_mapIdx]
  by_cases hp : p < n
  · have hset : (gather n met)[p]? = some _ := getElem?_gather hp
    have hexit := fun {q} => mem_gather_of_mem_exits hn hmet h (p := p) (q := q)
    rw [hset, Option.getD_some] at hexit
    rw [hset, Option.map_some]
    split
    · next hcond =>
      obtain ⟨hspans, hmeets⟩ := Bool.and_eq_true_iff.mp hcond
      congr 1
      -- Both sides filter the same range, so only the conditions have to agree.
      refine List.filter_congr fun q hq => ?_
      have hsub := hexit (q := q) (by simpa using hspans) hmeets
      rw [List.mem_range] at hq
      rw [IndexSet.mem_ofList] at hsub
      rw [Bool.eq_iff_iff, Bool.or_eq_true]
      simp only [List.contains_eq_mem, decide_eq_true_eq, IndexSet.mem_ofList]
      exact ⟨fun h => h.elim And.right fun h => (hsub h).2, fun h => .inl ⟨hq, h⟩⟩
    · rfl
  · have hnone : (gather n met)[p]? = none := by simp [gather, Nat.not_lt.mp hp]
    rw [hnone]
    rfl

end Adjacency

end Gather

variable (r : Regex)

/-- The expression that is labelled. -/
theorem describes_ofRegex :
    Describes (label none ⟨0, 0, 0⟩ r.desugar.anchor) ⟨0, 0, 0⟩ r.desugar.anchor := by
  rw [← anchor_desugar]
  exact .label_desugar r.anchor none ⟨0, 0, 0⟩

theorem positionCount_ofRegex : (ofRegex r).positionCount = r.desugar.anchor.width :=
  (describes_ofRegex r).width

/-- The positions that a match can begin with are the first ones. -/
theorem mem_start {q : Nat} : q ∈ (ofRegex r).start ↔ r.desugar.anchor.First 0 q := by
  rw [start, ofRegex, Piece.nodes]
  simpa using (describes_ofRegex r).mem_first q

theorem ascending_start : (ofRegex r).start.Ascending := by
  rw [start, ofRegex, Piece.nodes]
  simpa using (describes_ofRegex r).ascending

/-- The pairs of positions that meet at some node of a labelled expression. -/
def met (l : Labelled) : List (Nat × Nat) := l.nodes.flatMap (nodePairs l.nodes)

theorem mem_met (p q : Nat) : (p, q) ∈ (ofRegex r).met ↔ r.desugar.anchor.Adjacent 0 p q := by
  have hat : NodesAt (ofRegex r).nodes 0 (ofRegex r).nodes := by
    intro i a hi
    rwa [Nat.zero_add]
  exact (describes_ofRegex r).met _ hat p q

/-- Passing optional subtrees by adds nothing to the pairs that meet at the nodes. -/
theorem follow_eq_gather :
    (ofRegex r).follow = gather (ofRegex r).positionCount (ofRegex r).met := by
  have hskips : ∀ a ∈ (ofRegex r).nodes.filter (fun a => decide (a.shape = .maybe)),
      Skips 0 r.desugar.anchor a := by
    intro a ha
    obtain ⟨ha, hshape⟩ := List.mem_filter.mp ha
    exact (describes_ofRegex r).skips a ha (by simpa using hshape)
  rw [follow]
  generalize (ofRegex r).nodes.filter (fun a => decide (a.shape = .maybe)) = optional at hskips
  show optional.foldl _ (gather _ (ofRegex r).met) = _
  induction optional with
  | nil => rfl
  | cons a rest ih =>
    have hself := bypass_gather (Nat.le_of_eq (positionCount_ofRegex r).symm) (mem_met r)
      (hskips a (by simp))
    rw [List.foldl_cons, hself]
    exact ih fun b hb => hskips b (by simp [hb])

/-- A position follows another one if it is adjacent to it. -/
theorem mem_follow {p q : Nat} :
    q ∈ (ofRegex r).follow[p]?.getD [] ↔ r.desugar.anchor.Adjacent 0 p q := by
  rw [follow_eq_gather]
  exact mem_gather_iff_adjacent (Nat.le_of_eq (positionCount_ofRegex r).symm) (mem_met r)

end Labelled

end Munch
