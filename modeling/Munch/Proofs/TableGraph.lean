import Munch.Graph.Automata
import Munch.Proofs.TableText

set_option autoImplicit false

/-! # The graph of a table

Nodes and edges are only ever added to a graph, a node only once. So the graph of a table has the
edges of its states one state after the other, and behind them the edge that leads into it
(`Table.edges_graph`). The edges out of a state are gathered by their targets, which makes one edge
of all those that lead from a state to another one; its label has the maximal runs of the bytes that
lead there, in ascending order. Every node is an end of an edge or a state, so there is none for the
error state (`Table.Made.depicts_graph`).

With that, all that is printed about a table says what is in it (`Table.lossless_renderings`). -/

namespace Munch

/-! ## Adding to a graph -/

namespace Graph

variable {g : Graph} {id n left right : String} {changes : List (String × String)}

/-- The names of the nodes of a graph. -/
def names (g : Graph) : List String := g.nodes.map (·.1)

/-- The edges of a graph between two nodes. -/
def edgesBetween (g : Graph) (left right : String) : List Edge :=
  g.edges.filter fun e => e.left = left ∧ e.right = right

theorem map_fst_updateNodes (id : String) (changes : List (String × String))
    (ns : List (String × Attributes)) : (updateNodes id changes ns).map (·.1) =
      if id ∈ ns.map (·.1) then ns.map (·.1) else ns.map (·.1) ++ [id] := by
  induction ns with
  | nil => rfl
  | cons first rest ih =>
    rw [updateNodes]
    by_cases h : first.1 = id
    · simp [h]
    · have hmem : id ∈ (first :: rest).map (·.1) ↔ id ∈ rest.map (·.1) := by simp [Ne.symm h]
      rw [if_neg h, List.map_cons, ih]
      simp only [hmem]
      split <;> rfl

theorem mem_names_node : n ∈ (g.node id changes).names ↔ n ∈ g.names ∨ n = id := by
  rw [names, node, map_fst_updateNodes]
  split
  · next hmem => exact ⟨.inl, fun h => h.elim (fun hn => hn) (fun heq => heq ▸ hmem)⟩
  · rw [List.mem_append, List.mem_singleton]
    rfl

theorem nodup_names_node (h : g.names.Nodup) : (g.node id changes).names.Nodup := by
  rw [names, node, map_fst_updateNodes]
  split
  · exact h
  · next hnew => exact List.Nodup.append h (List.nodup_singleton _) (by simpa using hnew)

theorem mem_names_edge :
    n ∈ (g.edge left right changes).names ↔ n ∈ g.names ∨ n = left ∨ n = right := by
  show n ∈ ((g.node left []).node right []).names ↔ _
  rw [mem_names_node, mem_names_node, or_assoc]

theorem nodup_names_edge (h : g.names.Nodup) : (g.edge left right changes).names.Nodup :=
  nodup_names_node (nodup_names_node h)

end Graph

/-! ## Edges by their targets -/

namespace Edges

variable {es : Edges} {x : Nat} {e : Nat × List ByteRange}

/-- The ranges of the edges to a target. -/
def rangesTo (es : Edges) (x : Nat) : List ByteRange :=
  es.filterMap fun e => if e.2 = x then some e.1 else none

theorem mem_rangesTo {r : ByteRange} : r ∈ es.rangesTo x ↔ (r, x) ∈ es := by
  rw [rangesTo, List.mem_filterMap]
  constructor
  · rintro ⟨⟨r', x'⟩, hmem, heq⟩
    split at heq
    · next hx =>
      obtain rfl := Option.some.inj heq
      exact hx ▸ hmem
    · cases heq
  · exact fun hmem => ⟨_, hmem, if_pos rfl⟩

theorem mem_byTarget : e ∈ es.byTarget ↔ (∃ r, (r, e.1) ∈ es) ∧ e.2 = es.rangesTo e.1 := by
  obtain ⟨x, rs⟩ := e
  rw [byTarget, List.mem_map]
  simp only [List.mem_eraseDups, List.mem_map, Prod.exists, exists_eq_right, Prod.mk.injEq]
  constructor
  · rintro ⟨_, hx, rfl, rfl⟩
    exact ⟨hx, rfl⟩
  · rintro ⟨hx, rfl⟩
    exact ⟨x, hx, rfl, rfl⟩

/-- Edges that lead to a target are gathered under it once. -/
theorem filter_byTarget (h : ∃ r, (r, x) ∈ es) :
    es.byTarget.filter (·.1 = x) = [(x, es.rangesTo x)] := by
  have hmem : x ∈ (es.map (·.2)).eraseDups := by
    rw [List.mem_eraseDups, List.mem_map]
    obtain ⟨r, hr⟩ := h
    exact ⟨_, hr, rfl⟩
  have hone : (es.map (·.2)).eraseDups.filter (· = x) = [x] := by
    rw [List.filter_eq, List.count_eq_one_of_mem (nodup_eraseDups _) hmem, List.replicate_one]
  rw [byTarget, List.filter_map]
  exact (congrArg (List.map _) hone).trans rfl

/-- Edges that are apart leave the ranges to a target in ascending order. -/
theorem pairwise_rangesTo (h : es.Pairwise Apart) :
    (es.rangesTo x).Pairwise fun r s => r.hi < s.lo := by
  refine h.filterMap _ fun e f hef r hr s hs => ?_
  split at hr
  · split at hs
    · obtain rfl := Option.some.inj hr
      obtain rfl := Option.some.inj hs
      exact UInt8.lt_iff_toNat_lt.mpr hef.1
    · cases hs
  · cases hr

end Edges

namespace Table

variable {t : Table} {g : Graph} {n : String} {s s' x : Nat}

/-! ## The edges of the graph -/

/-- The edge of a graph for what leads from a state to a target. -/
def transition (s : Nat) (e : Nat × List ByteRange) : Graph.Edge :=
  ⟨toString s, toString e.1, [("label", ", ".intercalate (e.2.map ByteRange.quoted))]⟩

/-- The edge that leads into the graph of a table. -/
def entryEdge (t : Table) : Graph.Edge := ⟨"_start", toString t.start, []⟩

/-- A graph with an edge added for what leads from a state to a target. -/
def addTransition (s : Nat) (g : Graph) (e : Nat × List ByteRange) : Graph :=
  g.edge (toString s) (toString e.1) [("label", ", ".intercalate (e.2.map ByteRange.quoted))]

theorem edges_addTransition (e : Nat × List ByteRange) :
    (addTransition s g e).edges = g.edges ++ [transition s e] := rfl

theorem edges_foldl_addTransition (es : List (Nat × List ByteRange)) (g : Graph) :
    (es.foldl (addTransition s) g).edges = g.edges ++ es.map (transition s) := by
  induction es generalizing g with
  | nil => exact (List.append_nil _).symm
  | cons e es ih =>
    rw [List.foldl_cons, ih, edges_addTransition, List.append_assoc,
      List.singleton_append, List.map_cons]

theorem direction_foldl_addTransition (es : List (Nat × List ByteRange)) (g : Graph) :
    (es.foldl (addTransition s) g).direction = g.direction := by
  induction es generalizing g with
  | nil => rfl
  | cons e es ih => exact ih _

theorem direction_foldl_addState (states : List Nat) (g : Graph) :
    (states.foldl t.addState g).direction = g.direction := by
  induction states generalizing g with
  | nil => rfl
  | cons s states ih => exact (ih _).trans (direction_foldl_addTransition _ _)

theorem edges_addState :
    (t.addState g s).edges = g.edges ++ (t.edges s).byTarget.map (transition s) :=
  edges_foldl_addTransition _ _

theorem edges_foldl_addState (states : List Nat) (g : Graph) : (states.foldl t.addState g).edges =
    g.edges ++ states.flatMap fun s => (t.edges s).byTarget.map (transition s) := by
  induction states generalizing g with
  | nil => exact (List.append_nil _).symm
  | cons s states ih =>
    rw [List.foldl_cons, ih, edges_addState, List.flatMap_cons, List.append_assoc]

/-- The graph of a table has the edges of its states, and behind them the edge that leads into
    it. -/
theorem edges_graph (t : Table) : t.graph.edges =
    ((List.range t.size).tail.flatMap fun s => (t.edges s).byTarget.map (transition s)) ++
      [t.entryEdge] :=
  congrArg (· ++ [t.entryEdge]) (edges_foldl_addState _ _)

/-! ## The nodes of the graph -/

theorem mem_names_addTransition {e : Nat × List ByteRange} (hs : toString s ∈ g.names) :
    n ∈ (addTransition s g e).names ↔ n ∈ g.names ∨ n = toString e.1 := by
  refine Graph.mem_names_edge.trans (or_congr_right' fun hn => or_iff_right ?_)
  rintro rfl
  exact hn hs

theorem mem_names_foldl_addTransition (es : List (Nat × List ByteRange)) (g : Graph)
    (hs : toString s ∈ g.names) :
    n ∈ (es.foldl (addTransition s) g).names ↔ n ∈ g.names ∨ ∃ e ∈ es, n = toString e.1 := by
  induction es generalizing g with
  | nil => simp
  | cons e es ih =>
    rw [List.foldl_cons, ih _ ((mem_names_addTransition hs).mpr (.inl hs)),
      mem_names_addTransition hs]
    simp only [List.mem_cons, exists_eq_or_imp, or_assoc]

theorem nodup_names_foldl_addTransition (es : List (Nat × List ByteRange)) (g : Graph)
    (h : g.names.Nodup) : (es.foldl (addTransition s) g).names.Nodup := by
  induction es generalizing g with
  | nil => exact h
  | cons e es ih => exact ih _ (Graph.nodup_names_edge h)

theorem mem_names_addState : n ∈ (t.addState g s).names ↔
    n ∈ g.names ∨ n = toString s ∨ ∃ e ∈ (t.edges s).byTarget, n = toString e.1 := by
  refine (mem_names_foldl_addTransition _ _ (Graph.mem_names_node.mpr (.inr rfl))).trans ?_
  rw [Graph.mem_names_node, or_assoc]

theorem nodup_names_addState (h : g.names.Nodup) : (t.addState g s).names.Nodup :=
  nodup_names_foldl_addTransition _ _ (Graph.nodup_names_node h)

theorem mem_names_foldl_addState (states : List Nat) (g : Graph) :
    n ∈ (states.foldl t.addState g).names ↔
    n ∈ g.names ∨ ∃ s ∈ states, n = toString s ∨ ∃ e ∈ (t.edges s).byTarget, n = toString e.1 := by
  induction states generalizing g with
  | nil => simp
  | cons s states ih =>
    rw [List.foldl_cons, ih, mem_names_addState]
    simp only [List.mem_cons, exists_eq_or_imp, or_assoc]

theorem nodup_names_foldl_addState (states : List Nat) (g : Graph) (h : g.names.Nodup) :
    (states.foldl t.addState g).names.Nodup := by
  induction states generalizing g with
  | nil => exact h
  | cons s states ih => exact ih _ (nodup_names_addState h)

/-- The nodes of the graph of a table are the one in front of it, its states but the error state,
    and targets of edges. -/
theorem mem_names_graph : n ∈ t.graph.names ↔ n = "_start" ∨ n = toString t.start ∨
    ∃ s, (s ≠ error ∧ s < t.size) ∧
      (n = toString s ∨ ∃ e ∈ (t.edges s).byTarget, n = toString e.1) := by
  refine Graph.mem_names_edge.trans ?_
  rw [Graph.mem_names_node, mem_names_foldl_addState]
  simp only [mem_tail_range]
  have hempty : n ∉ ((Graph.empty .directed none).setAttribute "rankdir" "LR").names := nofun
  rw [or_iff_right hempty]
  constructor
  · rintro ((h | h) | h | h)
    exacts [.inr (.inr h), .inl h, .inl h, .inr (.inl h)]
  · rintro (h | h | h)
    exacts [.inl (.inr h), .inr (.inr h), .inl (.inl h)]

theorem nodup_names_graph : t.graph.names.Nodup :=
  Graph.nodup_names_edge (Graph.nodup_names_node (nodup_names_foldl_addState _ _ List.nodup_nil))

/-! ## What the graph shows -/

theorem toString_inj {a b : Nat} : toString a = toString b ↔ a = b := by
  refine ⟨fun h => ?_, congrArg toString⟩
  have hdigits : Nat.toDigits 10 a ++ [] = Nat.toDigits 10 b ++ [] := by
    simpa only [Nat.toString_eq_ofList_toDigits, String.toList_ofList,
      List.append_nil] using congrArg String.toList h
  exact (Text.legible_toDigits a b [] [] (Text.stops_nil _) (Text.stops_nil _) hdigits).1

/-- The name of the node in front of a table is not the number of a state. -/
theorem toString_ne_start (s : Nat) : toString s ≠ "_start" := by
  intro h
  have hdigit : ∀ c ∈ (toString s).toList, c.isDigit = true := by
    rw [Nat.toString_eq_ofList_toDigits, String.toList_ofList]
    exact fun _ => Text.isDigit_of_mem_toDigits
  exact absurd (hdigit '_' (h ▸ List.mem_cons_self)) (by decide)

/-- A graph shows where the states of a table lead. Its nodes are one in front of the table and the
    states but the error state. One edge leads to the start; every other edge leads from a state to
    one that some byte leads to. If some byte leads from a state to another one, there is exactly
    one edge between the two, and its label has the maximal runs of bytes that lead there, in
    ascending order. -/
structure Depicts (t : Table) (g : Graph) : Prop where
  directed : g.direction = .directed
  nodup_names : g.names.Nodup
  mem_names : ∀ n, n ∈ g.names ↔ n = "_start" ∨ ∃ s, (s ≠ error ∧ s < t.size) ∧ n = toString s
  no_error : toString error ∉ g.names
  entry : g.edges.filter (·.left = "_start") = [⟨"_start", toString t.start, []⟩]
  leads : ∀ e ∈ g.edges, e.left ≠ "_start" → ∃ s x, (s ≠ error ∧ s < t.size) ∧
    (x ≠ error ∧ x < t.size) ∧ (∃ b, t.next s b = x) ∧ e.left = toString s ∧ e.right = toString x
  edge : ∀ s x, s ≠ error ∧ s < t.size → x ≠ error ∧ x < t.size → (∃ b, t.next s b = x) →
    ∃ runs : List ByteRange, (runs.Pairwise fun r r' => r.hi < r'.lo) ∧
      (∀ r, r ∈ runs ↔ t.IsRun s x r) ∧ g.edgesBetween (toString s) (toString x) =
        [⟨toString s, toString x, [("label", ", ".intercalate (runs.map ByteRange.quoted))]⟩]

/-- What the targets of a state are gathered from. -/
theorem exists_next_of_mem_byTarget {e : Nat × List ByteRange} (he : e ∈ (t.edges s).byTarget) :
    e.1 ≠ error ∧ ∃ b, t.next s b = e.1 := by
  obtain ⟨⟨r, hr⟩, -⟩ := Edges.mem_byTarget.mp he
  obtain ⟨hnext, hne⟩ := ((t.showsRow_edges s).mem_iff r.lo e.1).mp ⟨r, hr, r.lo_mem⟩
  exact ⟨hne, r.lo, hnext⟩

/-- Only what leads from one state to one target becomes an edge between the two. -/
theorem filter_transition (s' : Nat) (es : List (Nat × List ByteRange)) :
    (es.map (transition s')).filter (fun e => e.left = toString s ∧ e.right = toString x) =
      if s' = s then (es.filter (·.1 = x)).map (transition s) else [] := by
  have hkeep : ∀ e, (decide ((transition s' e).left = toString s ∧
      (transition s' e).right = toString x)) =
        decide (s' = s ∧ e.1 = x) :=
    fun e => decide_eq_decide.mpr (and_congr toString_inj toString_inj)
  rw [List.filter_map]
  by_cases hs : s' = s
  · subst hs
    simp only [Function.comp_def, hkeep, true_and, if_pos]
  · simp only [Function.comp_def, hkeep, hs, false_and, decide_false, List.filter_false,
      List.map_nil, if_false]

/-- If only one member of a list is mapped to a list that is not empty, its list is all that is
    left. -/
theorem flatMap_eq_of_nodup {α β : Type} {xs : List α} {a : α} {f : α → List β}
    (hxs : xs.Nodup) (ha : a ∈ xs) (h : ∀ b ∈ xs, b ≠ a → f b = []) : xs.flatMap f = f a := by
  induction xs with
  | nil => cases ha
  | cons c xs ih =>
    obtain ⟨hc, hxs⟩ := List.nodup_cons.mp hxs
    obtain ⟨hhead, htail⟩ := List.forall_mem_cons.mp h
    rw [List.flatMap_cons]
    rcases List.mem_cons.mp ha with rfl | ha
    · rw [List.flatMap_eq_nil_iff.mpr fun b hb => htail b hb (ne_of_mem_of_not_mem hb hc),
        List.append_nil]
    · rw [hhead (ne_of_mem_of_not_mem ha hc).symm, List.nil_append, ih hxs ha htail]

/-- One edge of the graph leads from a state to a target. -/
theorem edgesBetween_graph (hs : s ≠ error ∧ s < t.size) (hx : x ≠ error)
    (hb : ∃ b, t.next s b = x) :
    t.graph.edgesBetween (toString s) (toString x) =
      [transition s (x, (t.edges s).rangesTo x)] := by
  obtain ⟨b, hb⟩ := hb
  obtain ⟨r, hr, -⟩ := ((t.showsRow_edges s).mem_iff b x).mpr ⟨hb, hx⟩
  have hentry : [t.entryEdge].filter (fun e => e.left = toString s ∧ e.right = toString x) = [] :=
    List.filter_cons_of_neg (by simpa [entryEdge] using fun h => absurd h.symm (toString_ne_start
      s))
  rw [Graph.edgesBetween, edges_graph, List.filter_append, List.filter_flatMap,
    hentry, List.append_nil]
  simp only [filter_transition]
  rw [flatMap_eq_of_nodup (List.nodup_range.sublist (List.tail_sublist _))
      (mem_tail_range.mpr hs) fun _ _ hne =>
    if_neg hne, if_pos rfl, Edges.filter_byTarget ⟨r, hr⟩, List.map_singleton]

/-- Targets are states, and so is the start, so every node but the first one is a state. -/
theorem Made.mem_names_graph_iff (h : t.Made) :
    n ∈ t.graph.names ↔ n = "_start" ∨ ∃ s, (s ≠ error ∧ s < t.size) ∧ n = toString s := by
  rw [mem_names_graph]
  refine or_congr_right ⟨?_, ?_⟩
  · rintro (rfl | ⟨s, hs, rfl | ⟨e, he, rfl⟩⟩)
    · exact ⟨t.start, ⟨h.start_eq_one ▸ Nat.one_ne_zero, h.wellFormed.start_lt⟩, rfl⟩
    · exact ⟨s, hs, rfl⟩
    · obtain ⟨hne, b, hb⟩ := exists_next_of_mem_byTarget he
      exact ⟨e.1, ⟨hne, hb ▸ h.wellFormed.next_lt s hs.2 b⟩, rfl⟩
  · rintro ⟨s, hs, rfl⟩
    exact .inr ⟨s, hs, .inl rfl⟩

/-- The graph of a table made from an expression shows where its states lead. -/
theorem Made.depicts_graph (h : t.Made) : t.Depicts t.graph where
  directed := direction_foldl_addState _ _
  nodup_names := nodup_names_graph
  mem_names _ := h.mem_names_graph_iff
  no_error := by
    rw [h.mem_names_graph_iff, or_iff_right (toString_ne_start error)]
    rintro ⟨s, hs, heq⟩
    exact hs.1 (toString_inj.mp heq).symm
  entry := by
    rw [edges_graph, List.filter_append, List.filter_flatMap,
      List.flatMap_eq_nil_iff.mpr, List.nil_append]
    · rfl
    · intro s _
      rw [List.filter_map, List.map_eq_nil_iff, List.filter_eq_nil_iff]
      exact fun e _ => by simpa [transition] using toString_ne_start s
  leads e he hleft := by
    rw [edges_graph, List.mem_append, List.mem_singleton] at he
    rcases he with he | rfl
    · obtain ⟨s, hs, hmem⟩ := List.mem_flatMap.mp he
      obtain ⟨e', he', rfl⟩ := List.mem_map.mp hmem
      rw [mem_tail_range] at hs
      obtain ⟨hne, b, hb⟩ := exists_next_of_mem_byTarget he'
      exact ⟨s, e'.1, hs, ⟨hne, hb ▸ h.wellFormed.next_lt s hs.2 b⟩, ⟨b, hb⟩, rfl, rfl⟩
    · exact absurd rfl hleft
  edge s x hs hx hb := by
    have hrow := t.showsRow_edges s
    refine ⟨(t.edges s).rangesTo x, Edges.pairwise_rangesTo hrow.apart, fun r => ?_,
      edgesBetween_graph hs hx.1 hb⟩
    rw [Edges.mem_rangesTo, mem_edges_iff, and_iff_right hx.1]

/-! ## All that is printed about a table -/

/-- What is printed about a table made from an expression, with or without its states merged, says
    what is in it. The edges out of a state ascend without sharing a byte, a byte is in an edge to a
    state exactly if it leads to that state and that is not the error state, and edges that touch
    lead to different states. Two such tables with the same text have the same start, accepting
    states and rows. The graph has one edge from a state to another one, neither the error state, if
    some byte leads there, labelled with the maximal runs of those bytes; one edge leads to the
    start; and no node is there for the error state. -/
theorem lossless_renderings (ht : t.Made) :
    (∀ s < t.size, t.ShowsRow s (t.edges s)) ∧
    (∀ u : Table, u.Made → t.listing = u.listing →
      t.start = u.start ∧ t.accepting = u.accepting ∧ t.rows = u.rows) ∧
    t.Depicts t.graph :=
  ⟨fun s _ => t.showsRow_edges s, fun _ hu => ht.eq_of_listing_eq hu, ht.depicts_graph⟩

/-- The table for a quote and the minimal one for a comma have different texts, as only one of them
    accepts a quote. -/
theorem lossless_renderings_separators :
    let t := ofRegex (.byte 39)
    let u := (ofRegex (.byte 44)).minimize
    t.Made ∧ u.Made ∧ t.listing ≠ u.listing := by
  intro t u
  have ht : t.Made := .ofRegex _
  have hu : u.Made := .minimize (.ofRegex _)
  refine ⟨ht, hu, fun h => ?_⟩
  obtain ⟨hstart, haccepting, hrows⟩ := (lossless_renderings ht).2.1 u hu h
  have hnext : t.next = u.next := by
    funext s b
    rw [next, next, row, row, hrows]
  have hsame : t.accept? (t.run t.start [39]) = u.accept? (u.run u.start [39]) := by
    rw [accept?, accept?, haccepting, run, run, hnext, hstart]
  have ht' : t.Recognizes (.byte 39) := recognizes_ofRegex (by decide)
  have hu' : u.Recognizes (.byte 44) :=
    recognizes_minimize (wellFormed_ofLabelled _) (recognizes_ofRegex (by decide))
  have hquote : IsLeast {k | (Regex.byte 39).Accepts k [39]} 0 :=
    ⟨⟨_, rfl, Regex.mem_language_byte.mpr rfl⟩, fun _ _ => Nat.zero_le _⟩
  rw [← ht' [39] 0, hsame, hu' [39] 0] at hquote
  obtain ⟨⟨body, hbody, hword⟩, -⟩ := hquote
  obtain rfl := Option.some.inj hbody
  exact absurd (Regex.mem_language_byte.mp hword) (by decide)

end Table

end Munch
