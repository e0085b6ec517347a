import Munch.Proofs.Occupied
import Munch.Proofs.Postorder

set_option autoImplicit false

/-! # Subtrees of a labelled set of patterns

The nodes of a labelled expression are numbered in postorder (`Proofs.Postorder`), so every subtree
is a run of nodes and a run of positions, and a position lies in the run of a node exactly if its
leaf is in the subtree of the node (`Labelled.below_iff_spans`). In a labelled set of patterns,
every pattern has one end mark, the last position of the run of its node
(`Regex.Patterns.roots_label`), and something comes after every other position. -/

namespace Munch

namespace Labelled

open Labelling Regex

/-! ## Runs of positions -/

section Runs

variable {nodes : List Node} {i j p s stop : Nat} {a b : Node} {js : List Nat}

namespace Tiled

/-- The run of an operand lies in the run of the node. -/
theorem bounds (h : Tiled nodes s js stop) :
    s ≤ stop ∧ ∀ j ∈ js, ∃ b, nodes[j]? = some b ∧ s ≤ b.start ∧ b.stop ≤ stop := by
  induction h with
  | nil => exact ⟨Nat.le_refl _, nofun⟩
  | @cons s j stop js a ha hstart hle hrest ih =>
    refine ⟨Nat.le_trans hle ih.1, fun k hk => ?_⟩
    rcases List.mem_cons.mp hk with rfl | hk
    · exact ⟨a, ha, Nat.le_of_eq hstart.symm, ih.1⟩
    · obtain ⟨b, hb, hs, hstop⟩ := ih.2 k hk
      exact ⟨b, hb, Nat.le_trans hle hs, hstop⟩

/-- A position of the run of a node lies in the run of an operand. -/
theorem exists_spans (h : Tiled nodes s js stop) (hs : s ≤ p) (hp : p < stop) :
    ∃ j ∈ js, ∃ b, nodes[j]? = some b ∧ b.start ≤ p ∧ p < b.stop := by
  induction h with
  | nil => exact absurd hp (Nat.not_lt.mpr hs)
  | @cons s j stop js a ha hstart hle hrest ih =>
    by_cases hlt : p < a.stop
    · exact ⟨j, List.mem_cons_self, a, ha, hstart ▸ hs, hlt⟩
    · obtain ⟨k, hk, hspans⟩ := ih (Nat.le_of_not_lt hlt) hp
      exact ⟨k, List.mem_cons_of_mem j hk, hspans⟩

end Tiled

theorem Numbered.child_lt (h : Numbered nodes i a) (hj : j ∈ a.children) : j < i := by
  obtain ⟨lo, hstacked, -⟩ := h.stacked
  exact (hstacked.mem_bounds hj).2

theorem spans_iff : a.spans p = true ↔ a.start ≤ p ∧ p < a.stop := by
  rw [Node.spans, Bool.and_eq_true, decide_eq_true_eq, decide_eq_true_eq]

variable (hall : ∀ i a, nodes[i]? = some a → Numbered nodes i a)

include hall

/-- The run of a node in a subtree lies in the run of the subtree. -/
theorem run_le_of_below (h : Below nodes i j) (ha : nodes[i]? = some a) (hb : nodes[j]? = some b) :
    a.start ≤ b.start ∧ b.stop ≤ a.stop := by
  induction h using Relation.ReflTransGen.head_induction_on generalizing a with
  | refl =>
    obtain rfl := Option.some.inj (ha.symm.trans hb)
    exact ⟨Nat.le_refl _, Nat.le_refl _⟩
  | @head i k hchild hbelow ih =>
    obtain ⟨a', ha', hk⟩ := hchild
    obtain rfl := Option.some.inj (ha.symm.trans ha')
    rcases (hall i a ha).tiled with ⟨_, _, hnil, _⟩ | ⟨_, htiled⟩
    · exact absurd hk (hnil ▸ List.not_mem_nil)
    · obtain ⟨c, hc, hstart, hstop⟩ := htiled.bounds.2 k hk
      obtain ⟨hstart', hstop'⟩ := ih hc
      exact ⟨Nat.le_trans hstart hstart', Nat.le_trans hstop' hstop⟩

/-- Every position of the run of a node is the position of a leaf in its subtree. -/
theorem exists_leaf_below (i : Nat) : ∀ a, nodes[i]? = some a → a.start ≤ p → p < a.stop →
    ∃ j b x, Below nodes i j ∧ nodes[j]? = some b ∧ b.shape = .leaf x ∧ b.start = p := by
  induction i using Nat.strongRecOn with
  | ind i ih =>
    intro a ha hs hp
    have hnumbered := hall i a ha
    rcases hnumbered.tiled with ⟨x, hx, -, hstop⟩ | ⟨-, htiled⟩
    · exact ⟨i, a, x, .refl, ha, hx, Nat.le_antisymm hs (by omega)⟩
    · obtain ⟨j, hj, b, hb, hbs, hbp⟩ := htiled.exists_spans hs hp
      obtain ⟨k, c, x, hbelow, hc, hx, hstart⟩ := ih j (hnumbered.child_lt hj) b hb hbs hbp
      exact ⟨k, c, x, .head ⟨a, ha, hj⟩ hbelow, hc, hx, hstart⟩

end Runs

/-! ## Labelled expressions -/

section OfRegex

variable (re : Regex)

theorem nodesAt_self (nodes : List Node) : NodesAt nodes 0 nodes := by
  intro i a hi
  rwa [Nat.zero_add]

theorem numbered_ofRegex (i : Nat) (a : Node) (h : (ofRegex re).nodes[i]? = some a) :
    Numbered (ofRegex re).nodes i a := by
  have hnumbered := ((labels_ofRegex re).fits (ofRegex re).nodes (nodesAt_self _)).numbered i a h
  rwa [Nat.zero_add] at hnumbered

theorem number_eq_root : (label none ⟨0, 0, 0⟩ re.desugar.anchor).number = (ofRegex re).root := by
  rw [(labels_ofRegex re).number, root, ofRegex, DescribesAll.length_nodes,
    Nat.add_sub_cancel, Nat.zero_add]

theorem hasForm_root : HasForm (ofRegex re).nodes (ofRegex re).root re.desugar.anchor := by
  rw [← number_eq_root]
  exact ((labels_ofRegex re).fits (ofRegex re).nodes (nodesAt_self _)).form

/-- Every node is in the subtree of the root. -/
theorem below_root_iff {i : Nat} :
    Below (ofRegex re).nodes (ofRegex re).root i ↔ i < (ofRegex re).nodes.length := by
  have hbelow := ((labels_ofRegex re).fits (ofRegex re).nodes (nodesAt_self _)).below i
  rw [number_eq_root] at hbelow
  have hlength : (ofRegex re).root + 1 = (ofRegex re).nodes.length := by
    rw [root, ofRegex, DescribesAll.length_nodes]
    rfl
  rw [hbelow]
  omega

/-- The run of the root is that of all positions. -/
theorem exists_root : ∃ a, (ofRegex re).nodes[(ofRegex re).root]? = some a ∧ a.start = 0 ∧
    a.stop = (ofRegex re).positionCount := by
  have hlabels := labels_ofRegex re
  have hroot := getElem?_number hlabels.number (nodesAt_self _)
  rw [number_eq_root] at hroot
  refine ⟨_, hroot, hlabels.start, ?_⟩
  rw [hlabels.stop, Nat.zero_add]
  exact hlabels.width.symm

variable {re} {i j p : Nat} {a : Node} {pl : Place}

/-- The positions are numbered from left to right over the leaves among the nodes. -/
theorem placeAt_ofRegex (re : Regex) :
    (ofRegex re).places.zipIdx.map placeAt = (ofRegex re).nodes.zipIdx.filterMap leafAt? :=
  (labels_ofRegex re).places

theorem leafAt?_eq_some_iff {b : Node} {x : Leaf} : leafAt? (b, i) = some (j, x, p) ↔
    i = j ∧ b.shape = .leaf x ∧ b.start = p := by
  rw [leafAt?]
  cases b.shape <;> simp

theorem placeAt_eq_iff {x : Leaf} :
    placeAt (pl, i) = (j, x, p) ↔ pl.node = j ∧ pl.leaf = x ∧ i = p := by
  rw [placeAt, Prod.mk.injEq, Prod.mk.injEq]

/-- What is at a position is a leaf among the nodes. -/
theorem exists_place_iff {x : Leaf} :
    (∃ pl, (ofRegex re).places[p]? = some pl ∧ pl.node = j ∧ pl.leaf = x) ↔
      ∃ b, (ofRegex re).nodes[j]? = some b ∧ b.shape = .leaf x ∧ b.start = p := by
  have hplace : (j, x, p) ∈ (ofRegex re).places.zipIdx.map placeAt ↔
      ∃ pl, (ofRegex re).places[p]? = some pl ∧ pl.node = j ∧ pl.leaf = x := by
    rw [List.mem_map]
    constructor
    · rintro ⟨⟨pl, q⟩, hmem, heq⟩
      obtain ⟨hnode, hleaf, rfl⟩ := placeAt_eq_iff.mp heq
      exact ⟨pl, List.mem_zipIdx_iff_getElem?.mp hmem, hnode, hleaf⟩
    · rintro ⟨pl, hpl, rfl, rfl⟩
      exact ⟨(pl, p), List.mem_zipIdx_iff_getElem?.mpr hpl, rfl⟩
  rw [← hplace, placeAt_ofRegex, List.mem_filterMap]
  constructor
  · rintro ⟨⟨b, i⟩, hmem, heq⟩
    obtain ⟨rfl, hx, hp⟩ := leafAt?_eq_some_iff.mp heq
    exact ⟨b, List.mem_zipIdx_iff_getElem?.mp hmem, hx, hp⟩
  · rintro ⟨b, hb, hx, hp⟩
    exact ⟨(b, j), List.mem_zipIdx_iff_getElem?.mpr hb, leafAt?_eq_some_iff.mpr ⟨rfl, hx, hp⟩⟩

/-- A position lies in the run of a node exactly if its leaf is in the subtree of the node. -/
theorem below_iff_spans (hp : (ofRegex re).places[p]? = some pl)
    (ha : (ofRegex re).nodes[i]? = some a) :
    Below (ofRegex re).nodes i pl.node ↔ a.spans p = true := by
  have hall := numbered_ofRegex re
  obtain ⟨b, hb, hx, rfl⟩ := exists_place_iff.mp ⟨pl, hp, rfl, rfl⟩
  rw [spans_iff]
  constructor
  · intro h
    obtain ⟨hstart, hstop⟩ := run_le_of_below hall h ha hb
    refine ⟨hstart, Nat.lt_of_lt_of_le ?_ hstop⟩
    rcases (hall _ b hb).tiled with ⟨_, _, _, hone⟩ | ⟨hleaf, _⟩
    · omega
    · exact absurd hx (hleaf _)
  · rintro ⟨hstart, hstop⟩
    obtain ⟨k, c, y, hbelow, hc, hy, hpos⟩ := exists_leaf_below hall i a ha hstart hstop
    obtain ⟨pl', hp', hnode, -⟩ := exists_place_iff.mpr ⟨c, hc, hy, hpos⟩
    obtain rfl := Option.some.inj (hp.symm.trans hp')
    exact hnode ▸ hbelow

end OfRegex

end Labelled

/-! ## Patterns and their end marks -/

/-- Whether a node is the root of a pattern. -/
def Node.isPattern (a : Node) : Bool := decide (a.shape = .pattern)

namespace Regex

open Labelling Labelled

variable {r re : Regex} {rs : List Regex}

theorem filter_isPattern_operands (shape : Shape) {m : Mark} {ps : List Piece}
    {patterns : Nat} {nullable : Bool} {first last : IndexSet} (h : shape ≠ .pattern) :
    (ofOperands shape m ps patterns nullable first last).nodes.filter Node.isPattern =
      (ps.flatMap Piece.nodes).filter Node.isPattern := by
  have hroot : Node.isPattern (ofOperands shape m ps patterns nullable first last).root = false :=
    decide_eq_false h
  rw [Piece.nodes, List.filter_append, List.filter_cons_of_neg (Bool.eq_false_iff.mp hroot),
    List.filter_nil, List.append_nil]
  rfl

/-- There is no pattern in a body. -/
theorem Plain.filter_isPattern (h : r.Plain) :
    ∀ owner m, (label owner m r).nodes.filter Node.isPattern = [] := by
  have hbody : ∀ {shape m A n opt}, shape ≠ .pattern → A.nodes.filter Node.isPattern = [] →
      (ofBody shape m A n opt).nodes.filter Node.isPattern = [] := by
    intro shape m A n opt hshape hA
    rw [ofBody, filter_isPattern_operands shape hshape, List.flatMap_singleton, hA]
  induction h with
  | byte | range => exact fun owner m => rfl
  | @cat items hitems ih =>
    clear hitems
    intro owner m
    have hall : ∀ m, ((labelAll owner m items).flatMap Piece.nodes).filter Node.isPattern = [] := by
      induction items with
      | nil => exact fun m => rfl
      | cons r rest ihrest =>
        intro m
        rw [labelAll, List.flatMap_cons, List.filter_append, ih r List.mem_cons_self,
          ihrest fun t ht => ih t (List.mem_cons_of_mem r ht)]
        rfl
    rw [label, ofCat, filter_isPattern_operands .cat (by decide)]
    exact hall m
  | alt _ _ iha ihb =>
    intro owner m
    rw [label, ofChoice, filter_isPattern_operands .alt (by decide), List.flatMap_cons,
      List.flatMap_singleton, List.filter_append, iha, ihb]
    rfl
  | star _ ih | plus _ ih | maybe _ ih => exact fun owner m => hbody (by decide) (ih owner m)

theorem length_places_label (r : Regex) (owner : Option Nat) (m : Mark) :
    (label owner m r).places.length = r.width := by
  have hlength := congrArg List.length (shows_label r owner m).1
  rwa [List.length_map, length_views] at hlength

/-- The roots of the patterns of a set are in order, and the run of each ends with its end mark. -/
theorem Patterns.roots_label (h : Patterns re rs) : ∀ owner m,
    let roots := (label owner m re).nodes.filter Node.isPattern
    roots.map (fun a => a.stop - 1) = re.endMarks m.position ∧ ∀ a ∈ roots, a.start < a.stop := by
  induction h with
  | @pattern r hr =>
    intro owner m roots
    let body := label (some m.pattern) { m with pattern := m.pattern + 1 } (.cat [r, .finish])
    have hbody : body.nodes.filter Node.isPattern = [] := by
      show (ofCat _ _).nodes.filter Node.isPattern = []
      rw [ofCat, filter_isPattern_operands .cat (by decide), labelAll,
        List.flatMap_cons, List.filter_append, hr.filter_isPattern]
      rfl
    have hwidth : body.places.length = (cat [r, .finish]).width := length_places_label _ _ _
    -- No pattern is inside another, which leaves the node of the pattern itself.
    have hroots : roots = [(label owner m (.pattern (.cat [r, .finish]))).root] := by
      show (([body].flatMap Piece.nodes ++ [_]).filter Node.isPattern) = _
      rw [List.filter_append, List.flatMap_singleton, hbody]
      rfl
    have hstop : (label owner m (.pattern (.cat [r, .finish]))).root.stop =
        m.position + (cat [r, .finish]).width :=
      congrArg (m.position + ·) hwidth
    rw [hroots]
    refine ⟨?_, fun a ha => ?_⟩
    · rw [List.map_singleton, hstop]
      rfl
    · obtain rfl := List.mem_singleton.mp ha
      rw [hstop]
      exact Nat.lt_add_of_pos_right (Nat.lt_of_lt_of_le Nat.one_pos (Nat.le_add_left 1 r.width))
  | @either a b _ _ _ _ iha ihb =>
    intro owner m roots
    obtain ⟨hstops, hruns⟩ := iha owner m
    obtain ⟨hstops', hruns'⟩ := ihb owner (m.after (label owner m a))
    have hposition : (m.after (label owner m a)).position = m.position + a.width :=
      congrArg (m.position + ·) (length_places_label a owner m)
    have hroots : roots = (label owner m a).nodes.filter Node.isPattern ++
        (label owner (m.after (label owner m a)) b).nodes.filter Node.isPattern := by
      show (ofChoice _ _ _ _).nodes.filter Node.isPattern = _
      rw [ofChoice, filter_isPattern_operands .either (by decide), List.flatMap_cons,
        List.flatMap_singleton, List.filter_append]
    rw [hroots, List.map_append, hstops, hstops', hposition]
    refine ⟨rfl, fun a ha => ?_⟩
    rcases List.mem_append.mp ha with ha | ha
    · exact hruns a ha
    · exact hruns' a ha

/-- A position of a body consumes bytes. -/
theorem Plain.fst_ne_none (h : r.Plain) : ∀ owner next, ∀ v ∈ r.views owner next, v.1 ≠ none := by
  induction h with
  | byte | range =>
    intro owner next v hv
    obtain rfl := List.mem_singleton.mp hv
    exact Option.some_ne_none _
  | @cat items hitems ih =>
    clear hitems
    intro owner next
    rw [views]
    induction items generalizing next with
    | nil => exact fun v hv => absurd hv List.not_mem_nil
    | cons r rest ihrest =>
      intro v hv
      rcases List.mem_append.mp hv with hv | hv
      · exact ih r List.mem_cons_self owner next v hv
      · exact ihrest (fun t ht => ih t (List.mem_cons_of_mem r ht)) _ v hv
  | alt _ _ iha ihb =>
    intro owner next v hv
    rcases List.mem_append.mp hv with hv | hv
    · exact iha owner next v hv
    · exact ihb owner _ v hv
  | star _ ih | plus _ ih | maybe _ ih => exact ih

/-- A position of a set of patterns consumes bytes or ends a pattern. -/
theorem Patterns.fst_eq_none_iff (h : Patterns re rs) : ∀ owner next, ∀ v ∈ re.views owner next,
    v.1 = none ↔ ∃ id, v.2 = some id := by
  induction h with
  | @pattern r hr =>
    intro owner next v hv
    rcases List.mem_append.mp hv with hv | hv
    · have hsnd := hr.snd_eq_none _ _ v hv
      exact iff_of_false (hr.fst_ne_none _ _ v hv) fun ⟨id, hid⟩ => by cases hsnd.symm.trans hid
    · obtain rfl := List.mem_singleton.mp hv
      exact iff_of_true rfl ⟨next, rfl⟩
  | either _ _ iha ihb =>
    intro owner next v hv
    rcases List.mem_append.mp hv with hv | hv
    · exact iha owner next v hv
    · exact ihb owner _ v hv

end Regex

/-! ## The whole labelled expression -/

namespace Labelled

open Regex

/-- The nodes of an expression are numbered in postorder. The root is the last node and every node
    has a number above those of its operands; the subtree of a node is a run of nodes, in which
    those of the operands stand one after the other; and the run of positions of a node holds the
    positions of the leaves in its subtree, and is divided into the runs of its operands. A node
    knows a position that its matches begin with, and one that they end with, exactly if one of its
    words over the positions has a letter. The positions are those of the leaves, from left to
    right. -/
structure InPostorder (l : Labelled) (re : Regex) : Prop where
  root : HasForm l.nodes l.root re
  below_root : ∀ i, Below l.nodes l.root i ↔ i < l.nodes.length
  child_lt : ∀ i j, Child l.nodes i j → j < i
  stacked : ∀ (i : Nat) (a : Node), l.nodes[i]? = some a →
    ∃ lo, Stacked l.nodes lo a.children i ∧ ∀ j, Below l.nodes i j ↔ lo ≤ j ∧ j ≤ i
  tiled : ∀ (i : Nat) (a : Node), l.nodes[i]? = some a →
    (∃ x, a.shape = .leaf x ∧ a.children = [] ∧ a.stop = a.start + 1) ∨
    ((∀ x, a.shape ≠ .leaf x) ∧ Tiled l.nodes a.start a.children a.stop)
  stop_le : ∀ (i : Nat) (a : Node), l.nodes[i]? = some a → a.start ≤ a.stop ∧
    a.stop ≤ l.positionCount
  below_iff : ∀ (i : Nat) (a : Node) (p : Nat) (pl : Place), l.nodes[i]? = some a →
    l.places[p]? = some pl → (Below l.nodes i pl.node ↔ a.start ≤ p ∧ p < a.stop)
  form : ∀ i, i < l.nodes.length → ∃! r, HasForm l.nodes i r
  letters : ∀ (i : Nat) (a : Node) (r : Regex), l.nodes[i]? = some a → HasForm l.nodes i r →
    (a.first ≠ [] ↔ ∃ w ∈ r.words a.start, w ≠ []) ∧ (a.last ≠ [] ↔ ∃ w ∈ r.words a.start, w ≠ [])
  sets_within : ∀ (i : Nat) (a : Node), l.nodes[i]? = some a → ∀ q ∈ a.first ++ a.last,
    a.start ≤ q ∧ q < a.stop
  places_eq : l.places.zipIdx.map placeAt = l.nodes.zipIdx.filterMap leafAt?
  views_eq : l.places.map Place.view = re.views none 0

/-- Every pattern has one end mark, the last position of the run of its root, and the marks are in
    the order of the patterns. Nothing follows an end mark, and something follows every other
    position. -/
structure EndsPatterns (l : Labelled) : Prop where
  stops : (l.nodes.filter Node.isPattern).map (fun a => a.stop - 1) = l.ends
  nonempty : ∀ a ∈ l.nodes.filter Node.isPattern, a.start < a.stop
  length_ends : l.ends.length = l.patterns
  pattern?_iff : ∀ p id, l.pattern? p = some id ↔ l.ends[id]? = some p
  finish_iff : ∀ (p : Nat) (pl : Place), l.places[p]? = some pl →
    (pl.leaf = .finish ↔ ∃ id, pl.pattern? = some id)
  ascending : l.ends.Pairwise (· < ·)
  follow_iff : ∀ (p : Nat) (pl : Place), l.places[p]? = some pl →
    ∃ set, l.follow[p]? = some set ∧ (set = [] ↔ pl.leaf = .finish)

theorem inPostorder_ofRegex (re : Regex) : (ofRegex re).InPostorder re.desugar.anchor := by
  have hall := numbered_ofRegex re
  have hroot := hasForm_root re
  refine {
    root := hroot
    below_root := fun i => below_root_iff re
    child_lt := ?_
    stacked := fun i a ha => (hall i a ha).stacked
    tiled := fun i a ha => (hall i a ha).tiled
    stop_le := ?_
    below_iff := fun i a p pl ha hp => (below_iff_spans hp ha).trans spans_iff
    form := ?_
    letters := ?_
    sets_within := ?_
    places_eq := placeAt_ofRegex re
    views_eq := view_ofRegex re }
  · rintro i j ⟨a, ha, hj⟩
    exact (hall i a ha).child_lt hj
  · intro i a ha
    obtain ⟨r, -, hstop, -⟩ := (hall i a ha).form
    refine ⟨hstop ▸ Nat.le_add_right _ _, ?_⟩
    obtain ⟨b, hb, -, hstop⟩ := exists_root re
    have hbelow := (below_root_iff re).mpr (List.getElem?_eq_some_iff.mp ha).1
    exact hstop ▸ (run_le_of_below hall hbelow hb ha).2
  · intro i hi
    obtain ⟨r, hr, -⟩ := (hall i _ (List.getElem?_eq_getElem hi)).form
    exact ⟨r, hr, fun t ht => ht.unique hr⟩
  · intro i a r ha hr
    obtain ⟨t, ht, -, hfirst, hlast⟩ := (hall i a ha).form
    obtain rfl := hr.unique ht
    have hne : ∀ set : IndexSet, set ≠ [] ↔ ∃ q, q ∈ set := fun set =>
      ⟨List.exists_mem_of_ne_nil set, fun ⟨_, hq⟩ => List.ne_nil_of_mem hq⟩
    -- A node has first positions exactly if some text that its expression describes has a letter.
    have hletters : (∃ w ∈ r.words a.start, w ≠ []) ↔ 0 < r.width := r.hasLetter_words_iff a.start
    rw [hne, hne, hletters, exists_congr hfirst, exists_congr hlast,
      r.exists_first_iff, r.exists_last_iff]
    exact ⟨Iff.rfl, Iff.rfl⟩
  · intro i a ha q hq
    obtain ⟨r, -, hstop, hfirst, hlast⟩ := (hall i a ha).form
    rw [hstop]
    rcases List.mem_append.mp hq with hq | hq
    · exact within_of_first ((hfirst q).mp hq)
    · exact within_of_last ((hlast q).mp hq)

section Patterns

variable {re : Regex} {rs : List Regex} {p : Nat} {pl : Place}

/-- A leaf that consumes nothing ends a pattern. -/
theorem leaf_eq_finish_iff (h : Patterns re.desugar.anchor rs)
    (hp : (ofRegex re).places[p]? = some pl) : pl.leaf = .finish ↔ ∃ id, pl.pattern? = some id := by
  have hview : pl.view ∈ re.desugar.anchor.views none 0 :=
    view_ofRegex re ▸ List.mem_map_of_mem (List.mem_of_getElem? hp)
  have hspan : pl.leaf.span? = none ↔ pl.leaf = .finish := by cases pl.leaf <;> simp [Leaf.span?]
  rw [← hspan]
  exact h.fst_eq_none_iff none 0 pl.view hview

/-- Nothing follows the end marks, and nothing but them. -/
theorem follow_eq_nil_iff (h : Patterns re.desugar.anchor rs)
    (hp : p < (ofRegex re).positionCount) :
    ∃ set, (ofRegex re).follow[p]? = some set ∧ (set = [] ↔ p ∈ (ofRegex re).ends) := by
  obtain ⟨set, hset⟩ : ∃ set, (ofRegex re).follow[p]? = some set := by
    rw [follow_eq_gather]
    exact ⟨_, getElem?_gather hp⟩
  have hwithin : re.desugar.anchor.Within 0 p := by
    rw [positionCount_ofRegex] at hp
    exact ⟨Nat.zero_le p, by rwa [Nat.zero_add]⟩
  have hnext : (∃ q, q ∈ set) ↔ p ∉ (ofRegex re).ends := by
    rw [ends_eq_endMarks h, ← h.exists_adjacent_iff hwithin]
    refine exists_congr fun q => ?_
    rw [← mem_follow, hset]
    rfl
  refine ⟨set, hset, ?_⟩
  rw [List.eq_nil_iff_forall_not_mem, ← not_exists, hnext, not_not]

end Patterns

theorem endsPatterns_ofRegex {re : Regex} (h : re.IsPatternSet) : (ofRegex re).EndsPatterns := by
  have hpatterns := patterns_anchor h
  have hends := ends_eq_endMarks hpatterns
  have hroots := hpatterns.roots_label none ⟨0, 0, 0⟩
  have hpattern : ∀ p id, (ofRegex re).pattern? p = some id ↔ (ofRegex re).ends[id]? = some p :=
      fun p id => by
    rw [hends, pattern?_eq_some_iff hpatterns]
  refine {
    stops := hroots.1.trans hends.symm
    nonempty := hroots.2
    length_ends := ?_
    pattern?_iff := hpattern
    finish_iff := fun p pl => leaf_eq_finish_iff hpatterns
    ascending := hends ▸ hpatterns.ascending_endMarks 0
    follow_iff := ?_ }
  · rw [ends, List.length_map, List.length_range]
  · intro p pl hp
    have hmark : p ∈ (ofRegex re).ends ↔ pl.leaf = .finish := by
      rw [leaf_eq_finish_iff hpatterns hp, List.mem_iff_getElem?]
      refine exists_congr fun id => ?_
      rw [← hpattern p id, pattern?, hp]
      rfl
    rw [← hmark]
    exact follow_eq_nil_iff hpatterns (List.getElem?_eq_some_iff.mp hp).1

/-- Labelling a set of patterns numbers its nodes in postorder and its positions from left to right,
    and gives every pattern one end mark, which is its last position and the only one that nothing
    follows. -/
theorem postorder_ofRegex {re : Regex} (h : re.IsPatternSet) :
    (ofRegex re).InPostorder re.desugar.anchor ∧ (ofRegex re).EndsPatterns :=
  ⟨inPostorder_ofRegex re, endsPatterns_ofRegex h⟩

/-- An empty sequence among the operands has an empty run, and a class has one position for each of
    its ranges. -/
theorem postorder_ofRegex_mixed :
    let re : Regex := .either (.cat [.maybe (.byte 97), .plus (.cat []),
      .byte 99]) (.star (.byte 100))
    re.IsPatternSet ∧ (ofRegex re).InPostorder re.desugar.anchor ∧ (ofRegex re).EndsPatterns ∧
      (ofRegex re).ends = [2, 4] := by
  intro re
  have h : re.IsPatternSet := by decide
  obtain ⟨hpostorder, hends⟩ := postorder_ofRegex h
  exact ⟨h, hpostorder, hends, by decide⟩

end Labelled

end Munch
