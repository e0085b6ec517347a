import Mathlib.Logic.Relation
import Munch.Proofs.PositionWords

set_option autoImplicit false

/-! # Nodes in postorder

Labelling an expression puts the nodes of its operands before its own node. So the nodes below a
node have the numbers right before its own, the operands one after the other (`Stacked`), and the
runs of positions of the operands follow each other from where the run of the node starts to where
it stops (`Tiled`).

A piece `Labels` an expression if its nodes are numbered like this among any nodes that they stand
with, whatever comes before and after them, and if its root has the form of the expression. Pieces
put together in a node keep it (`LabelsAll.operands`); hence so does the labelled form of every
expression without classes (`Labels.label_desugar`). -/

namespace Munch

namespace Regex

/-- The kind of the node of an expression; a class has no node of its own. -/
def shape? : Regex → Option Shape
  | .byte b => some (.leaf (.byte b))
  | .range r => some (.leaf (.range r))
  | .oneOf _ => none
  | .finish => some (.leaf .finish)
  | .cat _ => some .cat
  | .alt _ _ => some .alt
  | .either _ _ => some .either
  | .star _ => some .star
  | .plus _ => some .plus
  | .maybe _ => some .maybe
  | .pattern _ => some .pattern

/-- The operands of an expression. -/
def parts : Regex → List Regex
  | .byte _ | .range _ | .oneOf _ | .finish => []
  | .cat items => items
  | .alt a b | .either a b => [a, b]
  | .star r | .plus r | .maybe r | .pattern r => [r]

/-- An expression is known by its kind and its operands. -/
theorem eq_of_shape?_of_parts {r t : Regex} (hsome : r.shape? ≠ none) (hshape : r.shape? = t.shape?)
    (hparts : r.parts = t.parts) : r = t := by
  cases r <;> cases t <;> simp_all [shape?, parts]

/-- Induction on what an expression is put together from. -/
theorem parts_induct {motive : Regex → Prop}
    (h : ∀ r, (∀ t ∈ r.parts, motive t) → motive r) (r : Regex) : motive r := by
  have hpair : ∀ a b : Regex, motive a → motive b → ∀ t ∈ [a, b], motive t := by
    intro a b ha hb t ht
    rcases List.mem_pair.mp ht with rfl | rfl
    · exact ha
    · exact hb
  have hone : ∀ a : Regex, motive a → ∀ t ∈ [a], motive t :=
    fun a ha t ht => List.mem_singleton.mp ht ▸ ha
  induction r with
  | cat items ih => exact h _ ih
  | alt a b iha ihb => exact h _ (hpair a b iha ihb)
  | either a b iha ihb => exact h _ (hpair a b iha ihb)
  | star a ih => exact h _ (hone a ih)
  | plus a ih => exact h _ (hone a ih)
  | maybe a ih => exact h _ (hone a ih)
  | pattern a ih => exact h _ (hone a ih)
  | byte => exact h _ nofun
  | range => exact h _ nofun
  | oneOf => exact h _ nofun
  | finish => exact h _ nofun

end Regex

namespace Labelled

open Labelling Regex

section Tree

variable {nodes : List Node} {i j k lo hi s stop : Nat} {a : Node} {r t : Regex} {js : List Nat}

/-! ## The tree of the nodes -/

/-- One node is an operand of another one. -/
def Child (nodes : List Node) (i j : Nat) : Prop := ∃ a, nodes[i]? = some a ∧ j ∈ a.children

/-- One node is in the subtree of another one. -/
def Below (nodes : List Node) : Nat → Nat → Prop := Relation.ReflTransGen (Child nodes)

/-- A node is the root of the tree of an expression. -/
inductive HasForm (nodes : List Node) : Nat → Regex → Prop
  | node {i : Nat} {r : Regex} {a : Node} (ha : nodes[i]? = some a)
      (hshape : r.shape? = some a.shape)
      (hparts : List.Forall₂ (HasForm nodes) a.children r.parts) : HasForm nodes i r

/-- The subtrees of some nodes are runs of nodes, one after the other. -/
inductive Stacked (nodes : List Node) : Nat → List Nat → Nat → Prop
  | nil (lo : Nat) : Stacked nodes lo [] lo
  | cons {lo j hi : Nat} {js : List Nat} (hle : lo ≤ j) (h : ∀ k, Below nodes j k ↔ lo ≤ k ∧ k ≤ j)
      (hrest : Stacked nodes (j + 1) js hi) : Stacked nodes lo (j :: js) hi

/-- The runs of positions of some nodes follow each other. -/
inductive Tiled (nodes : List Node) : Nat → List Nat → Nat → Prop
  | nil (s : Nat) : Tiled nodes s [] s
  | cons {s j stop : Nat} {js : List Nat} {a : Node} (ha : nodes[j]? = some a)
      (hstart : a.start = s) (hle : s ≤ a.stop) (hrest : Tiled nodes a.stop js stop) :
      Tiled nodes s (j :: js) stop

theorem below_iff (ha : nodes[i]? = some a) :
    Below nodes i k ↔ k = i ∨ ∃ j ∈ a.children, Below nodes j k := by
  constructor
  · intro h
    rcases Relation.ReflTransGen.cases_head h with rfl | ⟨j, ⟨a', ha', hj⟩, hk⟩
    · exact .inl rfl
    · obtain rfl := Option.some.inj (ha.symm.trans ha')
      exact .inr ⟨j, hj, hk⟩
  · rintro (rfl | ⟨j, hj, hk⟩)
    · exact .refl
    · exact .head ⟨a, ha, hj⟩ hk

namespace Stacked

theorem le (h : Stacked nodes lo js hi) : lo ≤ hi := by
  induction h with
  | nil => exact Nat.le_refl _
  | cons hle _ _ ih => exact Nat.le_trans hle (Nat.le_of_succ_le ih)

/-- The nodes in the subtrees are those of the run. -/
theorem exists_below_iff (h : Stacked nodes lo js hi) :
    (∃ j ∈ js, Below nodes j k) ↔ lo ≤ k ∧ k < hi := by
  induction h with
  | nil lo => simp
  | @cons lo j hi js hle hj hrest ih =>
    have hhi := hrest.le
    rw [List.exists_mem_cons_iff, hj, ih]
    omega

theorem mem_bounds (h : Stacked nodes lo js hi) (hj : j ∈ js) : lo ≤ j ∧ j < hi :=
  h.exists_below_iff.mp ⟨j, hj, .refl⟩

/-- The node right behind the subtrees of its operands has its own subtree end with it. -/
theorem below_root_iff (h : Stacked nodes lo a.children i) (ha : nodes[i]? = some a) :
    Below nodes i k ↔ lo ≤ k ∧ k ≤ i := by
  have hle := h.le
  rw [below_iff ha, h.exists_below_iff]
  omega

end Stacked

/-- What a number says about its node: the subtree of the node is a run of nodes that ends with it,
    and its operands stand one after the other in it; its run of positions is that of one leaf, or
    that of its operands, one after the other; and it has the form of an expression, with as many
    positions, and knows those that a match begins and ends with. -/
structure Numbered (nodes : List Node) (i : Nat) (a : Node) : Prop where
  stacked : ∃ lo, Stacked nodes lo a.children i ∧ ∀ k, Below nodes i k ↔ lo ≤ k ∧ k ≤ i
  tiled : (∃ x, a.shape = .leaf x ∧ a.children = [] ∧ a.stop = a.start + 1) ∨
    ((∀ x, a.shape ≠ .leaf x) ∧ Tiled nodes a.start a.children a.stop)
  form : ∃ r : Regex, HasForm nodes i r ∧ a.stop = a.start + r.width ∧
    (∀ q, q ∈ a.first ↔ r.First a.start q) ∧ ∀ p, p ∈ a.last ↔ r.Last a.start p

/-- A node is the root of one tree. -/
theorem HasForm.unique (h : HasForm nodes i r) (h' : HasForm nodes i t) : r = t := by
  induction r using parts_induct generalizing i t with
  | h r ih =>
    obtain ⟨ha, hshape, hparts⟩ := h
    obtain ⟨ha', hshape', hparts'⟩ := h'
    obtain rfl := Option.some.inj (ha.symm.trans ha')
    refine eq_of_shape?_of_parts (hshape ▸ Option.some_ne_none _) (hshape.trans hshape'.symm) ?_
    -- Both lists of operands are those of the same children, so they are compared child by child.
    generalize Node.children _ = js at hparts hparts'
    generalize r.parts = rs at ih hparts
    generalize t.parts = ts at hparts'
    induction hparts generalizing ts with
    | nil =>
      cases hparts'
      rfl
    | cons h _ ihrest =>
      cases hparts' with
      | cons h' hrest' =>
        rw [ih _ List.mem_cons_self h h',
          ihrest (fun q hq => ih q (List.mem_cons_of_mem _ hq)) _ hrest']

end Tree

/-! ## Pieces -/

/-- The number, the leaf and the position of a node that is a leaf. -/
def leafAt? (x : Node × Nat) : Option (Nat × Leaf × Nat) :=
  match x.1.shape with
  | .leaf l => some (x.2, l, x.1.start)
  | _ => none

/-- The number of the node, the leaf and the number of a place. -/
def placeAt (x : Place × Nat) : Nat × Leaf × Nat := (x.1.node, x.1.leaf, x.2)

/-- The nodes of a piece stand among other nodes, from a number on, as the tree of an expression. -/
structure Fits (nodes : List Node) (P : Piece) (n : Nat) (r : Regex) : Prop where
  form : HasForm nodes P.number r
  below : ∀ k, Below nodes P.number k ↔ n ≤ k ∧ k ≤ P.number
  numbered : ∀ j a, P.nodes[j]? = some a → Numbered nodes (n + j) a

/-- A piece is an expression whose nodes and positions are numbered from some numbers on. -/
structure Labels (P : Piece) (n s : Nat) (r : Regex) : Prop where
  number : P.number = n + P.below.length
  start : P.root.start = s
  stop : P.root.stop = s + r.width
  width : P.places.length = r.width
  places : (P.places.zipIdx s).map placeAt = (P.nodes.zipIdx n).filterMap leafAt?
  fits : ∀ nodes, NodesAt nodes n P.nodes → Fits nodes P n r

/-- Pieces are expressions one after the other. -/
structure LabelsAll (ps : List Piece) (n s : Nat) (rs : List Regex) : Prop where
  width : (ps.flatMap (·.places)).length = widthAll rs
  places : ((ps.flatMap (·.places)).zipIdx s).map placeAt =
    ((ps.flatMap Piece.nodes).zipIdx n).filterMap leafAt?
  forms : ∀ nodes, NodesAt nodes n (ps.flatMap Piece.nodes) →
    List.Forall₂ (HasForm nodes) (ps.map (·.number)) rs
  stacked : ∀ nodes, NodesAt nodes n (ps.flatMap Piece.nodes) →
    Stacked nodes n (ps.map (·.number)) (n + (ps.flatMap Piece.nodes).length)
  tiled : ∀ nodes, NodesAt nodes n (ps.flatMap Piece.nodes) →
    Tiled nodes s (ps.map (·.number)) (s + widthAll rs)
  numbered : ∀ nodes, NodesAt nodes n (ps.flatMap Piece.nodes) →
    ∀ j a, (ps.flatMap Piece.nodes)[j]? = some a → Numbered nodes (n + j) a

theorem getElem?_number {P : Piece} {nodes : List Node} {n : Nat}
    (hnumber : P.number = n + P.below.length) (hat : NodesAt nodes n P.nodes) :
    nodes[P.number]? = some P.root := by
  rw [hnumber]
  exact hat P.below.length P.root (by simp [Piece.nodes])

namespace LabelsAll

variable {P : Piece} {ps : List Piece} {n s : Nat} {r : Regex} {rs : List Regex}

theorem nil (n s : Nat) : LabelsAll [] n s [] where
  width := rfl
  places := rfl
  forms _ _ := .nil
  stacked _ _ := .nil n
  tiled _ _ := .nil s
  numbered _ _ _ _ h := nomatch h

theorem cons (h : Labels P n s r) (hrest : LabelsAll ps (n + P.nodes.length) (s + r.width) rs) :
    LabelsAll (P :: ps) n s (r :: rs) where
  width := by rw [List.flatMap_cons, List.length_append, h.width, hrest.width, widthAll]
  places := by
    rw [List.flatMap_cons, List.flatMap_cons, List.zipIdx_append,
      List.zipIdx_append, List.map_append, List.filterMap_append, h.places, h.width, hrest.places]
  forms nodes hat := .cons (h.fits nodes hat.left).form (hrest.forms nodes hat.right)
  stacked nodes hat := by
    have hlength : P.number + 1 = n + P.nodes.length := by
      rw [h.number, DescribesAll.length_nodes, Nat.add_assoc]
    have hstacked := hrest.stacked nodes hat.right
    rw [List.flatMap_cons, List.length_append, ← Nat.add_assoc]
    have hle : n ≤ P.number := h.number ▸ Nat.le_add_right n P.below.length
    exact .cons hle (h.fits nodes hat.left).below (hlength ▸ hstacked)
  tiled nodes hat := by
    have htiled := hrest.tiled nodes hat.right
    rw [widthAll, ← Nat.add_assoc]
    exact .cons (getElem?_number h.number hat.left) h.start
      (h.stop ▸ Nat.le_add_right _ _) (h.stop ▸ htiled)
  numbered nodes hat j a hj := by
    rw [List.flatMap_cons] at hj
    by_cases hlt : j < P.nodes.length
    · rw [List.getElem?_append_left hlt] at hj
      exact (h.fits nodes hat.left).numbered j a hj
    · have hle := Nat.le_of_not_lt hlt
      rw [List.getElem?_append_right hle] at hj
      have hnumbered := hrest.numbered nodes hat.right _ a hj
      rwa [Nat.add_assoc, Nat.add_sub_cancel' hle] at hnumbered

end LabelsAll

section Pieces

variable {m : Mark} {r : Regex}

theorem Labels.leaf {l : Leaf} {owner : Option Nat} (h : Describes (ofLeaf l owner m) m r)
    (hshape : r.shape? = some (.leaf l)) (hparts : r.parts = []) :
    Labels (ofLeaf l owner m) m.node m.position r where
  number := h.number
  start := h.start
  stop := h.stop
  width := h.width
  places := rfl
  fits nodes hat := by
    have hroot := getElem?_number h.number hat
    have hstacked : Stacked nodes m.node [] m.node := .nil _
    have hform : HasForm nodes m.node r := .node hroot hshape (hparts ▸ .nil)
    have hbelow : ∀ k, Below nodes m.node k ↔ m.node ≤ k ∧ k ≤ m.node :=
      fun k => hstacked.below_root_iff hroot
    refine ⟨hform, hbelow, fun j a hj => ?_⟩
    obtain ⟨rfl, rfl⟩ : j = 0 ∧ (ofLeaf l owner m).root = a := by
      cases j with
      | zero => exact ⟨rfl, Option.some.inj hj⟩
      | succ j => cases hj
    exact ⟨⟨m.node, hstacked, hbelow⟩, .inl ⟨l, rfl, rfl, rfl⟩, r, hform, h.stop,
      h.mem_first, h.mem_last⟩

/-- A node with operands has their nodes before it. -/
theorem LabelsAll.operands {shape : Shape} {ps : List Piece} {patterns : Nat} {nullable : Bool}
    {first last : IndexSet} (hps : LabelsAll ps m.node m.position r.parts)
    (h : Describes (ofOperands shape m ps patterns nullable first last) m r)
    (hshape : r.shape? = some shape) (hleaf : ∀ x, shape ≠ .leaf x)
    (hwidth : widthAll r.parts = r.width) :
    Labels (ofOperands shape m ps patterns nullable first last) m.node m.position r where
  number := h.number
  start := h.start
  stop := h.stop
  width := h.width
  places := by
    have hnone : ∀ i, leafAt? ((ofOperands shape m ps patterns nullable first last).root, i) =
        none := by
      intro i
      cases shape with
      | leaf x => exact absurd rfl (hleaf x)
      | _ => rfl
    rw [Piece.nodes, List.zipIdx_append, List.filterMap_append, List.zipIdx_singleton,
      List.filterMap_cons_none (hnone _), List.filterMap_nil, List.append_nil]
    exact hps.places
  fits nodes hat := by
    have hroot := getElem?_number h.number hat
    have hatps : NodesAt nodes m.node (ps.flatMap Piece.nodes) := hat.left
    have hnumber : (ofOperands shape m ps patterns nullable first last).number =
        m.node + (ps.flatMap Piece.nodes).length := h.number
    -- The subtrees of the operands end where the node itself stands, right behind them.
    have hstacked := hps.stacked nodes hatps
    rw [← hnumber] at hstacked
    have hform : HasForm nodes (ofOperands shape m ps patterns nullable first last).number r :=
      .node hroot hshape (hps.forms nodes hatps)
    have hbelow := fun k => Stacked.below_root_iff (k := k) hstacked hroot
    refine ⟨hform, hbelow, fun j a hj => ?_⟩
    by_cases hlt : j < (ps.flatMap Piece.nodes).length
    · exact hps.numbered nodes hatps j a ((List.getElem?_append_left hlt).symm.trans hj)
    · have hj : [(ofOperands shape m ps patterns nullable first last).root][j -
          (ps.flatMap Piece.nodes).length]? =
          some a := (List.getElem?_append_right (Nat.le_of_not_lt hlt)).symm.trans hj
      obtain ⟨hzero, ha⟩ := List.getElem?_eq_some_iff.mp hj
      rw [List.getElem_singleton] at ha
      subst ha
      obtain rfl : j = (ps.flatMap Piece.nodes).length := by
        rw [List.length_singleton] at hzero
        omega
      rw [← hnumber]
      have htiled := hps.tiled nodes hatps
      rw [hwidth, ← h.stop] at htiled
      exact ⟨⟨m.node, hstacked, hbelow⟩, .inr ⟨hleaf, htiled⟩, r, hform, h.stop,
        h.mem_first, h.mem_last⟩

end Pieces

namespace Labels

variable {m : Mark} {r a b : Regex} {A B : Piece}

theorem node_after (m : Mark) (A : Piece) : (m.after A).node = m.node + A.nodes.length := by
  rw [DescribesAll.length_nodes, Mark.after, Nat.add_assoc]

theorem position_after {n : Nat} (h : Labels A n m.position a) :
    (m.after A).position = m.position + a.width :=
  congrArg (m.position + ·) h.width

/-- A node with two operands has the nodes of both before it, those of the first one first. -/
theorem choice {shape : Shape} (ha : Labels A m.node m.position a)
    (hb : Labels B (m.after A).node (m.after A).position b)
    (h : Describes (ofChoice shape m A B) m r) (hparts : r.parts = [a, b])
    (hshape : r.shape? = some shape) (hleaf : ∀ x, shape ≠ .leaf x)
    (hwidth : r.width = a.width + b.width) : Labels (ofChoice shape m A B) m.node m.position r := by
  rw [node_after, ha.position_after] at hb
  have hpair : LabelsAll [A, B] m.node m.position r.parts := hparts ▸ .cons ha (.cons hb (.nil _ _))
  exact hpair.operands h hshape hleaf (by rw [hparts, hwidth]; rfl)

/-- A node with one operand has its nodes before it. -/
theorem body {shape : Shape} {n : Nat} {optional : Bool} (ha : Labels A m.node m.position a)
    (h : Describes (ofBody shape m A n optional) m r) (hparts : r.parts = [a])
    (hshape : r.shape? = some shape) (hleaf : ∀ x, shape ≠ .leaf x) (hwidth : r.width = a.width) :
    Labels (ofBody shape m A n optional) m.node m.position r := by
  have hone : LabelsAll [A] m.node m.position r.parts := hparts ▸ .cons ha (.nil _ _)
  exact hone.operands h hshape hleaf (by rw [hparts, hwidth]; rfl)

theorem ofRange (r : ByteRange) (owner : Option Nat) (m : Mark) :
    Labels (label owner m (.ofRange r)) m.node m.position (.ofRange r) := by
  have h := Describes.ofRange r owner m
  by_cases hsingle : r.isSingle = true
  · rw [Regex.ofRange, if_pos hsingle] at h ⊢
    exact leaf h rfl rfl
  · rw [Regex.ofRange, if_neg hsingle] at h ⊢
    exact leaf h rfl rfl

theorem altRanges (owner : Option Nat) (rs : List ByteRange) : ∀ r m,
    Labels (label owner m (Regex.altRanges r rs)) m.node m.position (Regex.altRanges r rs) := by
  induction rs with
  | nil => exact fun r m => ofRange r owner m
  | cons s rest ih =>
    intro r m
    exact choice (ofRange r owner m) (ih s _) (Describes.altRanges owner (s :: rest) r m) rfl rfl
      (fun _ => Shape.noConfusion) rfl

/-- Labelling an expression without classes numbers its nodes in postorder. -/
theorem label_desugar (r : Regex) :
    ∀ owner m, Labels (label owner m r.desugar) m.node m.position r.desugar := by
  have h := Describes.label_desugar
  induction r with
  | byte b => exact fun owner m => leaf (h (.byte b) owner m) rfl rfl
  | range r => exact fun owner m => leaf (h (.range r) owner m) rfl rfl
  | finish => exact fun owner m => leaf (h .finish owner m) rfl rfl
  | oneOf c =>
    obtain ⟨r, rest, _, heq⟩ := exists_spelledOut_eq c
    rw [desugar, heq]
    exact fun owner m => altRanges owner rest r m
  | cat items ih =>
    intro owner m
    have hcat := h (.cat items) owner m
    have hall : ∀ m, LabelsAll (labelAll owner m (desugarAll items)) m.node m.position
        (desugarAll items) := by
      -- `hcat` is about all of the operands, which the induction takes apart.
      clear hcat
      induction items with
      | nil => exact fun m => .nil _ _
      | cons r rest ihrest =>
        intro m
        have hr := ih r List.mem_cons_self owner m
        have hrest := ihrest (fun s hs => ih s (List.mem_cons_of_mem _ hs))
          (m.after (label owner m r.desugar))
        rw [node_after, hr.position_after] at hrest
        exact .cons hr hrest
    exact (hall m).operands hcat rfl (fun _ => Shape.noConfusion) rfl
  | alt a b iha ihb =>
    exact fun owner m => choice (iha owner m) (ihb owner _) (h (.alt a b) owner m) rfl rfl
      (fun _ => Shape.noConfusion) rfl
  | either a b iha ihb =>
    exact fun owner m => choice (iha owner m) (ihb owner _) (h (.either a b) owner m) rfl rfl
      (fun _ => Shape.noConfusion) rfl
  | star r ih =>
    exact fun owner m => body (ih owner m) (h (.star r) owner m) rfl rfl
      (fun _ => Shape.noConfusion) rfl
  | plus r ih =>
    exact fun owner m => body (ih owner m) (h (.plus r) owner m) rfl rfl
      (fun _ => Shape.noConfusion) rfl
  | maybe r ih =>
    exact fun owner m => body (ih owner m) (h (.maybe r) owner m) rfl rfl
      (fun _ => Shape.noConfusion) rfl
  | pattern r ih =>
    exact fun owner m => body (ih _ _) (h (.pattern r) owner m) rfl rfl
      (fun _ => Shape.noConfusion) rfl

end Labels

/-- The nodes and positions of a labelled expression. -/
theorem labels_ofRegex (re : Regex) :
    Labels (label none ⟨0, 0, 0⟩ re.desugar.anchor) 0 0 re.desugar.anchor := by
  rw [← anchor_desugar]
  exact .label_desugar re.anchor none ⟨0, 0, 0⟩

end Labelled

end Munch
