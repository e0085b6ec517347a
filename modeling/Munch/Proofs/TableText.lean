import Munch.Proofs.Legible
import Munch.Proofs.TableEdges
import Munch.Table.Listing

set_option autoImplicit false

/-! # The text of a table says which table it is

The text of a table is made of lines, and each line can be told from what comes behind it: numbers
are legible in front of the words and signs that stand behind them, and the quoted bytes of a range
in front of anything but a dash (`ByteRange.legible_quoted`), also if a byte is itself a quote, a
comma or a backslash. All lines of accepting states and of edges are indented, what comes behind the
last of them is not. So two tables with the same text have the same start, accept the same in each
state, and have the same edges out of each state, which show the rows of the table
(`Table.Made.eq_of_listing_eq`). -/

namespace Munch

open Text (Legible LegibleAt Stops)

/-! ## Edges -/

theorem ByteRange.toList_quoted (r : ByteRange) : r.quoted.toList = '\'' :: (Byte.escape r.lo ++
    ('\'' :: if r.lo = r.hi then [] else '-' :: '\'' :: (Byte.escape r.hi ++ ['\'']))) := by
  simp only [quoted, isSingle, beq_iff_eq]
  split <;> simp [Byte.escaped]

/-- The quoted bytes of a range are legible in front of anything but a dash. -/
theorem ByteRange.legible_quoted : Legible (· == '-') fun r : ByteRange => r.quoted.toList := by
  intro r s u v hu hv h
  have hstop : ∀ w : List Char, Stops (fun _ => false) w := fun _ _ _ => rfl
  simp only [toList_quoted, List.cons_append, List.append_assoc, List.cons.injEq, true_and] at h
  obtain ⟨hlo, hrest⟩ := Byte.legible_escape _ _ _ _ (hstop _) (hstop _) h
  simp only [List.cons.injEq, true_and] at hrest
  rw [ByteRange.mk.injEq]
  by_cases hr : r.lo = r.hi
  · by_cases hs : s.lo = s.hi
    · rw [if_pos hr, if_pos hs] at hrest
      exact ⟨⟨hlo, hr.symm.trans (hlo.trans hs)⟩, hrest⟩
    · rw [if_pos hr, if_neg hs, List.nil_append] at hrest
      simp [hrest] at hu
  · by_cases hs : s.lo = s.hi
    · rw [if_neg hr, if_pos hs, List.nil_append] at hrest
      simp [← hrest] at hv
    · rw [if_neg hr, if_neg hs] at hrest
      simp only [List.cons_append, List.append_assoc, List.cons.injEq, true_and] at hrest
      obtain ⟨hhi, hend⟩ := Byte.legible_escape _ _ _ _ (hstop _) (hstop _) hrest
      exact ⟨⟨hlo, hhi⟩, (List.cons.inj hend).2⟩

namespace Table

theorem toList_edgeText (e : ByteRange × Nat) :
    (edgeText e).toList =
      e.1.quoted.toList ++ (' ' :: '-' :: '>' :: ' ' :: Nat.toDigits 10 e.2) := by
  simp [edgeText]

theorem legible_edgeText : Legible Char.isDigit fun e => (edgeText e).toList := by
  intro e f u v hu hv h
  simp only [toList_edgeText, List.cons_append, List.append_assoc] at h
  obtain ⟨hrange, hrest⟩ :=
    ByteRange.legible_quoted _ _ _ _ (Text.stops_cons.mpr rfl) (Text.stops_cons.mpr rfl) h
  simp only [List.cons.injEq, true_and] at hrest
  obtain ⟨htarget, hend⟩ := Text.legible_toDigits _ _ _ _ hu hv hrest
  exact ⟨Prod.ext hrange htarget, hend⟩

/-- The edges on the line of a state, each behind a comma. -/
def edgesText (edges : Edges) : List Char :=
  edges.flatMap fun e => ',' :: (' ' :: (edgeText e).toList)

theorem tail_edgesText (e : ByteRange × Nat) (rest : Edges) :
    (edgesText (e :: rest)).tail = ' ' :: (", ".intercalate ((e :: rest).map edgeText)).toList := by
  induction rest generalizing e with
  | nil => simp [edgesText]
  | cons f rest ih =>
    have hrest : edgesText (f :: rest) =
        ',' :: ' ' :: (", ".intercalate ((f :: rest).map edgeText)).toList := by
      rw [← ih]
      rfl
    show ' ' :: ((edgeText e).toList ++ edgesText (f :: rest)) = _
    rw [hrest]
    simp

/-- The edges on a line can be told from others, as no comma stands behind them. -/
theorem tail_edgesText_inj {es es' : Edges} {u v : List Char}
    (h : (edgesText es).tail ++ ('\n' :: u) = (edgesText es').tail ++ ('\n' :: v)) :
    es = es' ∧ u = v := by
  have hlegible : ∀ e ∈ es, LegibleAt Char.isDigit (fun e => ' ' :: (edgeText e).toList) e := by
    intro e _ f u v hu hv h
    exact legible_edgeText e f u v hu hv (List.cons.inj h).2
  have hend : ∀ w : List Char, Stops Char.isDigit ('\n' :: w) ∧ Stops (· == ',') ('\n' :: w) :=
      fun w =>
    ⟨Text.stops_cons.mpr (by decide), Text.stops_cons.mpr (by decide)⟩
  -- A line with edges goes on with a space, a line without them with its end.
  have hsame : edgesText es ++ ('\n' :: u) = edgesText es' ++ ('\n' :: v) := by
    cases es with
    | nil =>
      cases es' with
      | nil => exact h
      | cons => cases h
    | cons =>
      cases es' with
      | nil => cases h
      | cons => exact congrArg (',' :: ·) h
  obtain ⟨rfl, hrest⟩ :=
    LegibleAt.flatMap hlegible (by decide) (hend u).1 (hend v).1 (hend u).2 (hend v).2 hsame
  exact ⟨rfl, (List.cons.inj hrest).2⟩

/-! ## Lines -/

/-- The line of an accepting state, without its first space. -/
def acceptingText (e : Nat × Nat) : List Char :=
  ' ' :: ' ' :: ' ' ::
    (Nat.toDigits 10 e.1 ++ (' ' :: '-' :: '>' :: ' ' :: (Nat.toDigits 10 e.2 ++ ['\n'])))

/-- The line of a state with its edges, without its first space. -/
def rowText (e : Nat × Edges) : List Char :=
  ' ' :: ' ' :: ' ' :: (Nat.toDigits 10 e.1 ++ (':' :: ((edgesText e.2).tail ++ ['\n'])))

theorem toList_acceptingLine (s k : Nat) :
    (acceptingLine s k).toList = ' ' :: acceptingText (s, k) := by
  simp [acceptingLine, acceptingText]

theorem toList_edgesLine (t : Table) (s : Nat) :
    (t.edgesLine s).toList = ' ' :: rowText (s, t.edges s) := by
  rw [edgesLine]
  split
  · next hnil => simp [rowText, hnil, edgesText]
  · next hne =>
    obtain ⟨e, rest, hcons⟩ := List.exists_cons_of_ne_nil hne
    rw [hcons, rowText, tail_edgesText]
    simp

theorem legible_acceptingText : Legible (fun _ => false) acceptingText := by
  intro e f u v _ _ h
  simp only [acceptingText, List.cons_append, List.append_assoc, List.cons.injEq, true_and] at h
  obtain ⟨hstate, hrest⟩ :=
    Text.legible_toDigits _ _ _ _ (Text.stops_cons.mpr rfl) (Text.stops_cons.mpr rfl) h
  simp only [List.cons.injEq, true_and] at hrest
  obtain ⟨hid, hend⟩ :=
    Text.legible_toDigits _ _ _ _ (Text.stops_cons.mpr rfl) (Text.stops_cons.mpr rfl) hrest
  exact ⟨Prod.ext hstate hid, (List.cons.inj hend).2⟩

theorem legible_rowText : Legible (fun _ => false) rowText := by
  intro e f u v _ _ h
  simp only [rowText, List.cons_append, List.append_assoc, List.cons.injEq, true_and] at h
  obtain ⟨hstate, hrest⟩ :=
    Text.legible_toDigits _ _ _ _ (Text.stops_cons.mpr rfl) (Text.stops_cons.mpr rfl) h
  obtain ⟨hedges, hend⟩ := tail_edgesText_inj (List.cons.inj hrest).2
  exact ⟨Prod.ext hstate hedges, hend⟩

/-! ## The text -/

/-- The states that accept a pattern, each with its pattern. -/
def accepted (t : Table) : List (Nat × Nat) :=
  (List.range t.accepting.size).filterMap fun s => (t.accept? s).map (s, ·)

/-- The states but the error state, each with its edges. -/
def stateEdges (t : Table) : List (Nat × Edges) :=
  (List.range t.size).tail.map fun s => (s, t.edges s)

theorem toList_listing (t : Table) :
    t.listing.toList = "start: ".toList ++ (Nat.toDigits 10 t.start ++
      ("\naccepting:\n".toList ++ (t.accepted.flatMap (' ' :: acceptingText ·) ++
        ("transitions:\n".toList ++ t.stateEdges.flatMap (' ' :: rowText ·))))) := by
  have haccepting : (String.join ((List.range t.accepting.size).filterMap fun s =>
      (t.accept? s).map (acceptingLine s))).toList =
        t.accepted.flatMap (' ' :: acceptingText ·) := by
    simp only [String.toList_join, accepted, List.filterMap_eq_flatMap_toList,
      List.flatMap_assoc, Option.toList_map, List.flatMap_map, toList_acceptingLine]
  have hrows : (String.join ((List.range t.size).tail.map t.edgesLine)).toList =
      t.stateEdges.flatMap (' ' :: rowText ·) := by
    simp only [String.toList_join, stateEdges, List.flatMap_map, toList_edgesLine]
  simp only [listing, String.toList_append, haccepting, hrows]
  simp

/-- Tables that have the same text start in the same state, accept the same, and have the same
    edges. -/
theorem parts_eq_of_listing_eq {t u : Table} (h : t.listing = u.listing) :
    t.start = u.start ∧ t.accepted = u.accepted ∧ t.stateEdges = u.stateEdges := by
  have hnumber : ∀ w, Stops Char.isDigit ("\naccepting:\n".toList ++ w) := fun w =>
    Text.stops_append (c := '\n') rfl rfl w
  have hindent : ∀ w, Stops (· == ' ') ("transitions:\n".toList ++ w) := fun w =>
    Text.stops_append (c := 't') rfl rfl w
  have htext := congrArg String.toList h
  rw [toList_listing, toList_listing] at htext
  obtain ⟨hstart, htext⟩ :=
    Text.legible_toDigits _ _ _ _ (hnumber _) (hnumber _) (List.append_cancel_left htext)
  obtain ⟨haccepted, htext⟩ :=
    LegibleAt.flatMap (fun e _ => legible_acceptingText e) rfl (fun _ _ => rfl)
    (fun _ _ => rfl) (hindent _) (hindent _) (List.append_cancel_left htext)
  have hrows := List.append_cancel_left htext
  rw [← List.append_nil (List.flatMap _ t.stateEdges),
    ← List.append_nil (List.flatMap _ u.stateEdges)] at hrows
  obtain ⟨hedges, -⟩ :=
    LegibleAt.flatMap (fun e _ => legible_rowText e) rfl (Text.stops_nil _) (Text.stops_nil _)
    (Text.stops_nil _) (Text.stops_nil _) hrows
  exact ⟨hstart, haccepted, hedges⟩

/-! ## What the parts say -/

variable {t u : Table} {s k : Nat}

theorem mem_accepted : (s, k) ∈ t.accepted ↔ t.accept? s = some k := by
  rw [accepted, List.mem_filterMap]
  constructor
  · rintro ⟨_, -, hs⟩
    obtain ⟨_, hk, heq⟩ := Option.map_eq_some_iff.mp hs
    obtain ⟨rfl, rfl⟩ := Prod.mk.inj heq
    exact hk
  · intro hk
    exact ⟨s, List.mem_range.mpr (lt_size_of_accept? hk), by rw [hk]; rfl⟩

/-- Tables that accept the same in each state have the same table of accepting states, if they have
    as many states. -/
theorem accepting_eq (hsize : t.accepting.size = u.accepting.size)
    (h : ∀ s, t.accept? s = u.accept? s) : t.accepting = u.accepting := by
  refine Array.ext hsize fun i hi hi' => ?_
  have haccept := h i
  rwa [accept?, accept?, Array.getElem?_eq_getElem hi,
    Array.getElem?_eq_getElem hi', Option.join_some, Option.join_some] at haccept

/-- Tables whose states lead to the same states have the same rows, if they have as many states. -/
theorem rows_eq (hsize : t.size = u.size) (h : ∀ s < t.size, ∀ b, t.next s b = u.next s b) :
    t.rows = u.rows := by
  refine Array.ext hsize fun i hi hi' => Vector.ext fun j hj => ?_
  have hnext := h i hi (UInt8.ofNat j)
  simp only [next, row, Array.getElem?_eq_getElem hi, Array.getElem?_eq_getElem hi',
    Option.getD_some, Row.entry, UInt8.toNat_ofNat', Nat.mod_eq_of_lt hj] at hnext
  exact hnext

/-- Tables made from expressions are the same if they have the same text. -/
theorem Made.eq_of_listing_eq (ht : t.Made) (hu : u.Made) (h : t.listing = u.listing) :
    t.start = u.start ∧ t.accepting = u.accepting ∧ t.rows = u.rows := by
  obtain ⟨hstart, haccepted, hedges⟩ := parts_eq_of_listing_eq h
  have hsize : t.size = u.size := by
    have hlength := congrArg List.length hedges
    simp only [stateEdges, List.length_map, List.length_tail, List.length_range] at hlength
    have hpos := ht.wellFormed.size_pos
    have hpos' := hu.wellFormed.size_pos
    omega
  refine ⟨hstart, accepting_eq (by rw [ht.size_accepting, hu.size_accepting, hsize]) fun s => ?_,
    rows_eq hsize fun s hs b => ?_⟩
  · refine Option.ext fun k => ?_
    rw [← mem_accepted, haccepted, mem_accepted]
  · by_cases herror : s = error
    · rw [herror, ht.wellFormed.next_error, hu.wellFormed.next_error]
    · rw [stateEdges, stateEdges, ← hsize] at hedges
      have hsame : t.edges s = u.edges s :=
        (Prod.mk.inj (List.map_inj_left.mp hedges s (mem_tail_range.mpr ⟨herror, hs⟩))).2
      exact (t.showsRow_edges s).next_eq (hsame ▸ u.showsRow_edges s) b

end Table

end Munch
