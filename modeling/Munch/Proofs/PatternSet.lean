import Mathlib.Computability.Language
import Munch.Regex.Anchor
import Munch.Regex.Desugar

set_option autoImplicit false

/-! # Pattern sets and their languages

A pattern set is a tree of `either` nodes over the bodies of its patterns, each body bare or already
a complete pattern (`IsPatternSet`). The language of a body is the usual one (`language`).

The automata are built from a pattern set after two normalizations: every class is spelled out, and
every body gets its root and its end mark. `Patterns` describes what is left then — `either` nodes
over anchored `Plain` bodies — and `patterns_anchor` says that every pattern set ends up there, with
its bodies in order. Proofs about the automata go by induction on `Patterns` and `Plain`. -/

namespace Munch

open Computability

namespace Regex

/-! ## Bodies -/

mutual

/-- Whether an expression can be the body of a pattern: it has no end marks, no patterns and no sets
    of patterns in it. -/
def isBody : Regex → Bool
  | .byte _ | .range _ | .oneOf _ => true
  | .cat items => allBodies items
  | .alt a b => isBody a && isBody b
  | .star r | .plus r | .maybe r => isBody r
  | .pattern _ | .either _ _ | .finish => false

/-- Whether every expression of a list can be the body of a pattern. -/
def allBodies : List Regex → Bool
  | [] => true
  | r :: rest => isBody r && allBodies rest

end

theorem allBodies_iff {items : List Regex} :
    allBodies items = true ↔ ∀ r ∈ items, r.isBody = true := by
  induction items with
  | nil => simp [allBodies]
  | cons r rest ih => simp [allBodies, ih]

/-- The bodies of the patterns of a set, from left to right; a leaf that is not a complete pattern
    is its own body. -/
def bodies : Regex → List Regex
  | .either a b => bodies a ++ bodies b
  | .pattern (.cat [r, .finish]) => [r]
  | r => [r]

/-- A set of patterns: a tree of `either` nodes whose leaves are bodies, complete or not. -/
def IsPatternSet (re : Regex) : Prop := ∀ r ∈ re.bodies, r.isBody = true

instance (re : Regex) : Decidable re.IsPatternSet :=
  inferInstanceAs (Decidable (∀ r ∈ re.bodies, r.isBody = true))

theorem bodies_of_isBody {r : Regex} (h : r.isBody = true) : r.bodies = [r] := by
  cases r <;> simp_all [isBody, bodies]

/-- Pattern sets are built from bodies, complete patterns and pairs of pattern sets. -/
theorem IsPatternSet.induct {motive : Regex → Prop}
    (bare : ∀ r, r.isBody = true → motive r)
    (complete : ∀ r, r.isBody = true → motive (.pattern (.cat [r, .finish])))
    (either : ∀ a b, motive a → motive b → motive (.either a b))
    {re : Regex} (h : re.IsPatternSet) : motive re := by
  induction re with
  | either a b iha ihb =>
    have h : ∀ r ∈ a.bodies ++ b.bodies, r.isBody = true := h
    exact either a b (iha fun r hr => h r (List.mem_append_left _ hr))
      (ihb fun r hr => h r (List.mem_append_right _ hr))
  | pattern body _ =>
    unfold IsPatternSet bodies at h
    split at h
    · next heq => exact absurd heq (by simp)
    · next r heq => exact heq ▸ complete r (h r (by simp))
    · exact absurd (h _ (List.mem_singleton_self _)) (by simp [isBody])
  | _ => exact bare _ (h _ (by simp [bodies]))

/-! ## Languages -/

mutual

/-- The texts that an expression matches. -/
def language : Regex → Language UInt8
  | .byte b => {[b]}
  | .range r => ({w | ∃ b ∈ r, w = [b]} : Set Bytes)
  | .oneOf c => ({w | ∃ b ∈ c.set, w = [b]} : Set Bytes)
  | .cat items => catLanguage items
  | .alt a b | .either a b => language a + language b
  | .star r => (language r)∗
  | .plus r => language r * (language r)∗
  | .maybe r => 1 + language r
  | .pattern r => language r
  | .finish => 1

/-- The texts that expressions match one after the other. -/
def catLanguage : List Regex → Language UInt8
  | [] => 1
  | r :: rest => language r * catLanguage rest

end

theorem mem_language_byte {b : UInt8} {w : Bytes} : w ∈ (byte b).language ↔ w = [b] := Iff.rfl

theorem mem_language_range {r : ByteRange} {w : Bytes} :
    w ∈ (range r).language ↔ ∃ b ∈ r, w = [b] := Iff.rfl

theorem mem_language_oneOf {c : ByteClass} {w : Bytes} :
    w ∈ (oneOf c).language ↔ ∃ b ∈ c.set, w = [b] := Iff.rfl

theorem mem_language_ofRange {r : ByteRange} {w : Bytes} :
    w ∈ (ofRange r).language ↔ ∃ b ∈ r, w = [b] := by
  unfold ofRange
  split
  · next h =>
    have hlh : r.lo = r.hi := by simpa [ByteRange.isSingle] using h
    rw [mem_language_byte]
    constructor
    · rintro rfl
      exact ⟨r.lo, ⟨UInt8.le_refl _, r.lo_le_hi⟩, rfl⟩
    · rintro ⟨b, ⟨hlo, hhi⟩, rfl⟩
      rw [UInt8.le_antisymm (hlh ▸ hhi) hlo]
  · exact mem_language_range

theorem mem_language_altRanges {rs : List ByteRange} {w : Bytes} : ∀ {r : ByteRange},
    w ∈ (altRanges r rs).language ↔ ∃ b, ByteRange.Covers (r :: rs) b ∧ w = [b] := by
  induction rs with
  | nil => intro r; simp [altRanges, mem_language_ofRange]
  | cons s rest ih =>
    intro r
    rw [altRanges, language, Language.mem_add, mem_language_ofRange, ih]
    constructor
    · rintro (⟨b, hb, rfl⟩ | ⟨b, hb, rfl⟩)
      · exact ⟨b, ByteRange.covers_cons.mpr (.inl hb), rfl⟩
      · exact ⟨b, ByteRange.covers_cons.mpr (.inr hb), rfl⟩
    · rintro ⟨b, hb, rfl⟩
      exact (ByteRange.covers_cons.mp hb).imp (⟨b, ·, rfl⟩) (⟨b, ·, rfl⟩)

/-- A class is spelled out as the alternation of its ranges, of which there is at least one. -/
theorem exists_spelledOut_eq (c : ByteClass) :
    ∃ r rest, c.set.ranges = r :: rest ∧ c.spelledOut = altRanges r rest := by
  unfold ByteClass.spelledOut
  split
  next r rest _ heq _ => exact ⟨r, rest, heq, rfl⟩

/-- A class matches what the alternation of its ranges matches. -/
theorem language_spelledOut (c : ByteClass) : c.spelledOut.language = (oneOf c).language := by
  obtain ⟨r, rest, hranges, heq⟩ := exists_spelledOut_eq c
  ext w
  rw [heq, mem_language_altRanges, mem_language_oneOf]
  simp only [ByteSet.mem_iff_covers, hranges]

theorem catLanguage_desugarAll {items : List Regex}
    (h : ∀ r ∈ items, r.desugar.language = r.language) :
    catLanguage (desugarAll items) = catLanguage items := by
  induction items with
  | nil => rfl
  | cons r rest ih =>
    rw [desugarAll, catLanguage, catLanguage, h r (by simp), ih fun s hs => h s (by simp [hs])]

/-- Spelling classes out keeps the language. -/
theorem language_desugar (r : Regex) : r.desugar.language = r.language := by
  induction r with
  | oneOf c => rw [desugar, language_spelledOut]
  | cat items ih => rw [desugar, language, language, catLanguage_desugarAll ih]
  | byte b => rfl
  | range s => rfl
  | finish => rfl
  | alt a b iha ihb => rw [desugar, language, language, iha, ihb]
  | either a b iha ihb => rw [desugar, language, language, iha, ihb]
  | star r ih => rw [desugar, language, language, ih]
  | plus r ih => rw [desugar, language, language, ih]
  | maybe r ih => rw [desugar, language, language, ih]
  | pattern r ih => rw [desugar, language, language, ih]

/-! ## Normal forms -/

/-- A body whose classes were all spelled out. -/
inductive Plain : Regex → Prop
  | byte (b : UInt8) : Plain (.byte b)
  | range (r : ByteRange) : Plain (.range r)
  | cat {items : List Regex} (h : ∀ r ∈ items, Plain r) : Plain (.cat items)
  | alt {a b : Regex} (ha : Plain a) (hb : Plain b) : Plain (.alt a b)
  | star {r : Regex} (h : Plain r) : Plain (.star r)
  | plus {r : Regex} (h : Plain r) : Plain (.plus r)
  | maybe {r : Regex} (h : Plain r) : Plain (.maybe r)

theorem plain_ofRange (r : ByteRange) : (ofRange r).Plain := by
  unfold ofRange
  split
  · exact .byte _
  · exact .range r

theorem plain_altRanges (rs : List ByteRange) : ∀ r, (altRanges r rs).Plain := by
  induction rs with
  | nil => exact plain_ofRange
  | cons s rest ih => exact fun r => .alt (plain_ofRange r) (ih s)

theorem plain_spelledOut (c : ByteClass) : c.spelledOut.Plain := by
  obtain ⟨r, rest, _, heq⟩ := exists_spelledOut_eq c
  exact heq ▸ plain_altRanges rest r

/-- Spelling the classes of a body out makes it plain. -/
theorem plain_desugar {r : Regex} (h : r.isBody = true) : r.desugar.Plain := by
  induction r with
  | byte b => exact .byte b
  | range s => exact .range s
  | oneOf c => exact plain_spelledOut c
  | cat items ih =>
    rw [desugar, desugarAll_eq_map]
    refine .cat fun s hs => ?_
    obtain ⟨t, ht, rfl⟩ := List.mem_map.mp hs
    exact ih t ht (allBodies_iff.mp h t ht)
  | alt a b iha ihb =>
    obtain ⟨ha, hb⟩ := Bool.and_eq_true_iff.mp h
    exact .alt (iha ha) (ihb hb)
  | star r ih => exact .star (ih h)
  | plus r ih => exact .plus (ih h)
  | maybe r ih => exact .maybe (ih h)
  | pattern r => exact absurd h (by simp [isBody])
  | either a b => exact absurd h (by simp [isBody])
  | finish => exact absurd h (by simp [isBody])

/-- An anchored set of patterns with plain bodies, and its bodies from left to right. -/
inductive Patterns : Regex → List Regex → Prop
  | pattern {r : Regex} (h : Plain r) : Patterns (.pattern (.cat [r, .finish])) [r]
  | either {a b : Regex} {as bs : List Regex} (ha : Patterns a as) (hb : Patterns b bs) :
    Patterns (.either a b) (as ++ bs)

theorem terminate_of_plain {r : Regex} (h : r.Plain) : r.terminate = .cat [r, .finish] := by
  cases h with
  | @cat items h =>
    have hlast : items.getLast? ≠ some .finish := fun hl => nomatch h _ (List.mem_of_getLast? hl)
    simp [terminate, hlast]
  | _ => rfl

theorem anchor_of_plain {r : Regex} (h : r.Plain) : r.anchor = .pattern (.cat [r, .finish]) := by
  rw [← terminate_of_plain h]
  cases h <;> rfl

/-- Normalizing a pattern set gives its bodies, made plain, their roots and end marks. -/
theorem patterns_anchor {re : Regex} (h : re.IsPatternSet) :
    Patterns re.desugar.anchor (re.bodies.map desugar) := by
  refine h.induct (motive := fun re => Patterns re.desugar.anchor (re.bodies.map desugar))
    (fun r hr => ?_) (fun r hr => ?_) (fun a b ha hb => ?_)
  · rw [anchor_of_plain (plain_desugar hr), bodies_of_isBody hr]
    exact .pattern (plain_desugar hr)
  · rw [bodies]
    exact .pattern (plain_desugar hr)
  · rw [bodies, List.map_append]
    exact .either ha hb

theorem terminate_desugar (r : Regex) : r.terminate.desugar = r.desugar.terminate := by
  cases r with
  | cat items =>
    have hfin : ∀ s : Regex, s.desugar = .finish ↔ s = .finish := by
      intro s
      cases s with
      | oneOf c =>
        have := plain_spelledOut c
        simp only [desugar, reduceCtorEq, iff_false]
        intro he
        exact nomatch he ▸ this
      | _ => simp [desugar]
    have hlast : (desugarAll items).getLast? = some .finish ↔ items.getLast? = some .finish := by
      rw [desugarAll_eq_map, List.getLast?_map]
      cases items.getLast? with
      | none => simp
      | some s => simp [hfin]
    by_cases h : items.getLast? = some .finish
    · simp [terminate, desugar, h, hlast]
    · simp [terminate, desugar, desugarAll, h, hlast]
  | oneOf c =>
    show .cat [c.spelledOut, .finish] = c.spelledOut.terminate
    rw [terminate_of_plain (plain_spelledOut c)]
  | _ => simp [terminate, desugar, desugarAll]

/-- Classes can be spelled out before or after the end marks are added. -/
theorem anchor_desugar (r : Regex) : r.anchor.desugar = r.desugar.anchor := by
  induction r with
  | either a b iha ihb => simp [anchor, desugar, iha, ihb]
  | pattern r => simp [anchor, desugar, terminate_desugar]
  | oneOf c =>
    have hanchor := anchor_of_plain (plain_spelledOut c)
    simp [anchor, desugar, terminate, desugarAll, hanchor]
  | cat items => simpa [anchor, desugar] using terminate_desugar (.cat items)
  | _ => simp [anchor, desugar, terminate, desugarAll]

end Regex

end Munch
