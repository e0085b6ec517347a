import Munch.Proofs.Positions

set_option autoImplicit false

/-! # What stands at a position

From left to right, the positions of an expression are the leaves that consume bytes, and the end
marks, each of which ends the pattern that it is in (`Regex.views`). A pattern gets its number where
it begins: a pattern inside of another one gets the next number, and what comes behind it there is
in the outer pattern again. The places of a labelled expression are these
(`Labelled.view_ofRegex`). -/

namespace Munch

namespace Regex

mutual

/-- The bytes that each position of an expression consumes, or the pattern that it ends. The
    expression is in the pattern `owner`, and the patterns in it are numbered from `next` on. -/
def views (owner : Option Nat) (next : Nat) : Regex → List (Option ByteRange × Option Nat)
  | .byte b => [(some (.single b), none)]
  | .range r => [(some r, none)]
  | .oneOf c => c.set.ranges.map fun r => (some r, none)
  | .finish => [(none, owner)]
  | .cat items => viewsAll owner next items
  | .alt a b | .either a b => views owner next a ++ views owner (next + a.patternCount) b
  | .star r | .plus r | .maybe r => views owner next r
  | .pattern r => views (some next) (next + 1) r

/-- What stands at each position of expressions one after the other. -/
def viewsAll (owner : Option Nat) (next : Nat) : List Regex → List (Option ByteRange × Option Nat)
  | [] => []
  | r :: rest => views owner next r ++ viewsAll owner (next + r.patternCount) rest

end

theorem length_views (r : Regex) : ∀ owner next, (r.views owner next).length = r.width := by
  induction r with
  | oneOf c =>
    intro owner next
    rw [views, List.length_map, width]
  | cat items ih =>
    intro owner next
    rw [views, width]
    induction items generalizing next with
    | nil => rfl
    | cons r rest ihrest =>
      rw [viewsAll, List.length_append, ih r List.mem_cons_self,
        ihrest fun s hs => ih s (List.mem_cons_of_mem r hs), widthAll]
  | alt a b iha ihb =>
    intro owner next
    rw [views, List.length_append, iha, ihb, width]
  | either a b iha ihb =>
    intro owner next
    rw [views, List.length_append, iha, ihb, width]
  | star r ih => exact ih
  | plus r ih => exact ih
  | maybe r ih => exact ih
  | pattern r ih => exact fun owner next => ih (some next) (next + 1)
  | _ => exact fun owner next => rfl

end Regex

namespace Labelling

open Regex

theorem view_ofLeaf_ofRange (r : ByteRange) (owner : Option Nat) (m : Mark) :
    (ofLeaf (.ofRange r) owner m).places.map Place.view = [(some r, none)] := by
  unfold Leaf.ofRange ofLeaf Place.view
  split
  · next h =>
    obtain ⟨lo, hi, hle⟩ := r
    obtain rfl : lo = hi := by simpa [ByteRange.isSingle] using h
    rfl
  · rfl

/-- The places of a piece are what stands at the positions of its expression, and the piece has the
    patterns of the expression. -/
def Shows (P : Piece) (owner : Option Nat) (next : Nat) (r : Regex) : Prop :=
  P.places.map Place.view = r.views owner next ∧ P.patterns = r.patternCount

theorem shows_ofRanges (owner : Option Nat) (rs : List ByteRange) : ∀ (r : ByteRange) (m : Mark),
    (ofRanges owner m r rs).places.map Place.view = (r :: rs).map (fun r => (some r, none)) ∧
      (ofRanges owner m r rs).patterns = 0 := by
  induction rs with
  | nil => exact fun r m => ⟨view_ofLeaf_ofRange r owner m, rfl⟩
  | cons s rest ih =>
    intro r m
    obtain ⟨hplaces, hpatterns⟩ := ih s (m.after (ofLeaf (.ofRange r) owner m))
    have hhead := view_ofLeaf_ofRange r owner m
    constructor
    · simp only [ofRanges, ofChoice, ofOperands, List.flatMap_cons,
        List.flatMap_nil, List.append_nil, List.map_append, hhead, hplaces]
      rfl
    · simp only [ofRanges, ofChoice, ofOperands, List.map_cons, List.map_nil,
        List.foldr_cons, List.foldr_nil, hpatterns]
      rfl

theorem shows_choice {shape : Shape} {a b : Regex} {owner : Option Nat} {m : Mark} {A B : Piece}
    (ha : Shows A owner m.pattern a) (hb : Shows B owner (m.after A).pattern b) :
    Shows (ofChoice shape m A B) owner m.pattern (.alt a b) := by
  obtain ⟨hplaces, hpatterns⟩ := ha
  obtain ⟨hplaces', hpatterns'⟩ := hb
  rw [Mark.after, hpatterns] at hplaces'
  constructor
  · simp only [ofChoice, ofOperands, List.flatMap_cons, List.flatMap_nil, List.append_nil,
      List.map_append, hplaces, hplaces', views]
  · simp only [ofChoice, ofOperands, List.map_cons, List.map_nil, List.foldr_cons,
      List.foldr_nil, hpatterns, hpatterns', patternCount, Nat.add_zero]

theorem shows_body {shape : Shape} {r : Regex} {owner : Option Nat} {next : Nat}
    {m : Mark} {A : Piece} {optional : Bool} (h : Shows A owner next r) :
    Shows (ofBody shape m A 0 optional) owner next r := by
  obtain ⟨hplaces, hpatterns⟩ := h
  constructor
  · simp only [ofBody, ofOperands, List.flatMap_cons, List.flatMap_nil, List.append_nil, hplaces]
  · simp only [ofBody, ofOperands, List.map_cons, List.map_nil, List.foldr_cons,
      List.foldr_nil, hpatterns, Nat.add_zero]

theorem shows_label (r : Regex) : ∀ owner m, Shows (label owner m r) owner m.pattern r := by
  induction r with
  | byte b => exact fun owner m => ⟨rfl, rfl⟩
  | range r => exact fun owner m => ⟨rfl, rfl⟩
  | finish => exact fun owner m => ⟨rfl, rfl⟩
  | oneOf c =>
    intro owner m
    rw [label]
    split
    next r rest _ hranges _ =>
      rw [Shows, views, hranges]
      exact shows_ofRanges owner rest r m
  | cat items ih =>
    intro owner m
    rw [label, ofCat, Shows, views, patternCount]
    simp only [ofOperands, Nat.add_zero]
    induction items generalizing m with
    | nil => exact ⟨rfl, rfl⟩
    | cons r rest ihrest =>
      obtain ⟨hplaces, hpatterns⟩ := ih r List.mem_cons_self owner m
      -- The rest is labelled from behind the first operand, whose patterns are counted by then.
      obtain ⟨hplaces', hpatterns'⟩ :=
        ihrest (fun s hs => ih s (List.mem_cons_of_mem r hs)) (m.after (label owner m r))
      simp only [Mark.after, hpatterns] at hplaces' hpatterns'
      constructor
      · simp only [labelAll, List.flatMap_cons, List.map_append, hplaces, viewsAll, Mark.after,
          hpatterns, hplaces']
      · simp only [labelAll, List.map_cons, List.foldr_cons, hpatterns, patternCountAll,
          Mark.after, hpatterns']
  | alt a b iha ihb => exact fun owner m => shows_choice (iha owner m) (ihb owner _)
  | either a b iha ihb => exact fun owner m => shows_choice (iha owner m) (ihb owner _)
  | star r ih => exact fun owner m => shows_body (ih owner m)
  | plus r ih => exact fun owner m => shows_body (ih owner m)
  | maybe r ih => exact fun owner m => shows_body (ih owner m)
  | pattern r ih =>
    intro owner m
    obtain ⟨hplaces, hpatterns⟩ := ih (some m.pattern) { m with pattern := m.pattern + 1 }
    constructor
    · simp only [label, ofBody, ofOperands, List.flatMap_cons, List.flatMap_nil,
        List.append_nil, hplaces, views]
    · simp only [label, ofBody, ofOperands, List.map_cons, List.map_nil, List.foldr_cons,
        List.foldr_nil, hpatterns, patternCount, Nat.add_zero]

end Labelling

namespace Labelled

variable (re : Regex)

/-- What stands at the positions of a labelled expression. -/
theorem view_ofRegex : (ofRegex re).places.map Place.view = re.desugar.anchor.views none 0 :=
  (Labelling.shows_label re.desugar.anchor none ⟨0, 0, 0⟩).1

theorem patterns_ofRegex : (ofRegex re).patterns = re.desugar.anchor.patternCount :=
  (Labelling.shows_label re.desugar.anchor none ⟨0, 0, 0⟩).2

variable {re} {p : Nat}

theorem span?_ofRegex : (ofRegex re).span? p = (re.desugar.anchor.views none 0)[p]?.bind (·.1) := by
  rw [← view_ofRegex, List.getElem?_map, span?]
  cases (ofRegex re).places[p]? <;> rfl

theorem pattern?_ofRegex :
    (ofRegex re).pattern? p = (re.desugar.anchor.views none 0)[p]?.bind (·.2) := by
  rw [← view_ofRegex, List.getElem?_map, pattern?]
  cases (ofRegex re).places[p]? <;> rfl

end Labelled

end Munch
