import Munch.Proofs.Grammar

set_option autoImplicit false

/-! # Patterns written with parentheses

An expression is written as a pattern by putting every operand in parentheses. Parsing what is
written gives the expression back (`Pattern.parse_spelled`), but for one thing: a concatenation of
one item is written as that item in parentheses, and parentheses leave no node, so only the item is
found again. This does not change the language (`Regex.language_collapse`).

The text of an expression is an alternation of the grammar, and of nothing else: an operand in
parentheses is an atom whatever it is, so the induction over the expression needs no more of its
operands than that they are alternations themselves. -/

namespace Munch

namespace Regex

/-- An expression that can be written as a pattern without escapes: its bytes and the bounds of its
    ranges stand for themselves, no range is one byte, and no concatenation is empty. -/
inductive Spellable : Regex → Prop where
  | byte {b : UInt8} (h : ∀ c ∈ Pattern.Grammar.special, b ≠ Byte.ofChar c) : Spellable (.byte b)
  | range {r : ByteRange} (h : r.lo < r.hi)
      (hlo : ∀ c ∈ Pattern.Grammar.special, r.lo ≠ Byte.ofChar c)
      (hhi : ∀ c ∈ Pattern.Grammar.special, r.hi ≠ Byte.ofChar c) : Spellable (.range r)
  | cat {items : List Regex} (hne : items ≠ []) (h : ∀ r ∈ items, Spellable r) :
      Spellable (.cat items)
  | alt {a b : Regex} (ha : Spellable a) (hb : Spellable b) : Spellable (.alt a b)
  | star {r : Regex} (h : Spellable r) : Spellable (.star r)
  | plus {r : Regex} (h : Spellable r) : Spellable (.plus r)
  | maybe {r : Regex} (h : Spellable r) : Spellable (.maybe r)

theorem ne_ofChar_of_all {b : UInt8} {cs : List Char}
    (h : (cs.all fun c => b != Byte.ofChar c) = true) :
    ∀ c ∈ cs, b ≠ Byte.ofChar c := fun c hc => bne_iff_ne.mp (List.all_eq_true.mp h c hc)

/-- A text in parentheses. -/
def enclosed (u : Bytes) : Bytes := Byte.ofChar '(' :: (u ++ [Byte.ofChar ')'])

mutual

/-- An expression as a pattern, with every operand in parentheses; nothing for the nodes that have
    no text. -/
def spelled : Regex → Bytes
  | .byte b => [b]
  | .range r => [Byte.ofChar '[', r.lo, Byte.ofChar '-', r.hi, Byte.ofChar ']']
  | .cat items => spelledAll items
  | .alt a b => enclosed (spelled a) ++ Byte.ofChar '|' :: enclosed (spelled b)
  | .star r => enclosed (spelled r) ++ [Byte.ofChar '*']
  | .plus r => enclosed (spelled r) ++ [Byte.ofChar '+']
  | .maybe r => enclosed (spelled r) ++ [Byte.ofChar '?']
  | .oneOf _ | .pattern _ | .either _ _ | .finish => []

/-- Expressions in parentheses, one after the other. -/
def spelledAll : List Regex → Bytes
  | [] => []
  | r :: rest => enclosed (spelled r) ++ spelledAll rest

end

mutual

/-- An expression with the item in place of every concatenation of one item. -/
def collapse : Regex → Regex
  | .cat [r] => collapse r
  | .cat items => .cat (collapseAll items)
  | .alt a b => .alt (collapse a) (collapse b)
  | .star r => .star (collapse r)
  | .plus r => .plus (collapse r)
  | .maybe r => .maybe (collapse r)
  | r => r

/-- Every expression of a list collapsed. -/
def collapseAll : List Regex → List Regex
  | [] => []
  | r :: rest => collapse r :: collapseAll rest

end

/-- What is left of a concatenation is what the parser makes of that many items. -/
theorem collapse_cat (items : List Regex) :
    collapse (.cat items) = Pattern.sequenceOf (collapseAll items) := by
  match items with
  | [] => rfl
  | [r] => rfl
  | r :: s :: rest => rfl

theorem language_collapse_cat {items : List Regex}
    (h : ∀ r ∈ items, r.collapse.language = r.language) :
    (collapse (.cat items)).language = (cat items).language := by
  have hall : catLanguage (collapseAll items) = catLanguage items := by
    induction items with
    | nil => rfl
    | cons r rest ih =>
      rw [collapseAll, catLanguage, catLanguage, h r List.mem_cons_self,
        ih fun s hs => h s (List.mem_cons_of_mem r hs)]
  rcases items with _ | ⟨r, _ | ⟨s, rest⟩⟩
  · rfl
  · rw [language, ← hall, collapseAll, collapseAll, catLanguage, catLanguage, mul_one, collapse]
  · rw [collapse, language, language, hall]
    simp

/-- Collapsing keeps the language. -/
theorem language_collapse (r : Regex) : r.collapse.language = r.language := by
  induction r with
  | cat items ih => exact language_collapse_cat ih
  | alt a b iha ihb => rw [collapse, language, language, iha, ihb]
  | star r ih => rw [collapse, language, language, ih]
  | plus r ih => rw [collapse, language, language, ih]
  | maybe r ih => rw [collapse, language, language, ih]
  | _ => rfl

end Regex

namespace Pattern

open Grammar Regex

variable {r : Regex} {items : List Regex} {u : Bytes}

namespace Grammar

/-- The class with one range in it is that range. -/
theorem anyOf_range {r : ByteRange} (h : r.lo < r.hi) :
    AnyOf {b | r.lo ≤ b ∧ b ≤ r.hi ∨ r.hi ≤ b ∧ b ≤ r.lo} (.range r) := by
  refine ⟨⟨[r], List.pairwise_singleton _ _⟩, ?_, ?_⟩
  · ext b
    refine ByteSet.mem_iff_covers.trans ?_
    have hlt : r.lo.toNat < r.hi.toNat := h
    simp only [ByteRange.Covers, List.mem_singleton, exists_eq_left,
      ByteRange.mem_iff_toNat, Set.mem_ofPred_eq, UInt8.le_iff_toNat_le]
    omega
  · have hsingle : r.isSingle = false := beq_eq_false_iff_ne.mpr (UInt8.ne_of_lt h)
    simp [ofSet?, ByteSet.single?, ofRange, hsingle]

theorem symbol_range {r : ByteRange} (h : r.lo < r.hi) (hlo : ∀ c ∈ special, r.lo ≠ Byte.ofChar c)
    (hhi : ∀ c ∈ special, r.hi ≠ Byte.ofChar c) : Symbol (spelled (.range r)) (.range r) := by
  have hitem : ClassItem [Byte.ofChar ']'] ([r.lo] ++ Byte.ofChar '-' :: [r.hi]) _ :=
    .range (.plain (hlo _ (by decide))) (.plain (hhi _ (by decide))) fun heq =>
      hhi ']' (by decide) (Option.some.inj heq)
  refine .charClass (.plain (.last hitem) ?_ (anyOf_range h))
  exact fun heq => hlo '^' (by decide) (Option.some.inj heq)

theorem Symbol.alternation (h : Symbol u r) : Alternation u r := by
  have hitem : Item (u ++ []) r := .repeated (.symbol h) .nil
  rw [List.append_nil] at hitem
  exact .single (.single hitem)

theorem Alternation.item_enclosed (h : Alternation u r) : Item (enclosed u) r := by
  have hitem : Item (enclosed u ++ []) r := .repeated (.group h) .nil
  rwa [List.append_nil] at hitem

/-- An operand in parentheses and one repetition operator. -/
theorem Alternation.repeated {q : Regex} {v : Bytes} (h : Alternation u r) (hq : Repeated r v q) :
    Alternation (enclosed u ++ v) q :=
  .single (.single (.repeated (.group h) hq))

/-- Operands in parentheses, one after the other, are the items of a sequence. -/
theorem items_spelledAll (hne : items ≠ []) (h : ∀ r ∈ items, Alternation r.spelled r.collapse) :
    Items (spelledAll items) (collapseAll items) := by
  induction items with
  | nil => exact absurd rfl hne
  | cons r rest ih =>
    have hitem : Item (enclosed r.spelled) r.collapse := (h r List.mem_cons_self).item_enclosed
    cases rest with
    | nil =>
      rw [spelledAll, spelledAll, List.append_nil]
      exact .last hitem
    | cons s rest =>
      exact .cons hitem (ih (List.cons_ne_nil s rest) fun q hq => h q (List.mem_cons_of_mem r hq))

end Grammar

/-- What is written for an expression derives the expression, collapsed. -/
theorem alternation_spelled (h : r.Spellable) : Alternation r.spelled r.collapse := by
  induction h with
  | byte h => exact (Symbol.byte h).alternation
  | range h hlo hhi => exact (symbol_range h hlo hhi).alternation
  | @cat items hne h ih =>
    rw [collapse_cat]
    exact .single (sequence_iff.mpr ⟨_, items_spelledAll hne ih, rfl⟩)
  | alt ha hb iha ihb =>
    exact .alt (.single iha.item_enclosed) (.single (.single ihb.item_enclosed))
  | star h ih => exact ih.repeated (.star .nil)
  | plus h ih => exact ih.repeated (.plus .nil)
  | maybe h ih => exact ih.repeated (.maybe .nil)

/-- Parsing what is written for an expression gives the expression back, with the item in place of
    every concatenation of one item, as a complete pattern. -/
theorem parse_spelled (h : r.Spellable) : parse r.spelled = .ok r.collapse.complete := by
  have hderived : Alternation r.spelled r.collapse := alternation_spelled h
  rw [complete_of_isBody hderived.isBody]
  exact parse_eq_ok_iff.mpr ⟨r.collapse, hderived, rfl⟩

theorem parse_spelled_one_item :
    (cat [.alt (.cat [.star (.byte 97)]) (.range ⟨45, 122, by decide⟩),
      .plus (.byte 98)]).Spellable ∧ parse (['(', '(', '(', '(', 'a', ')', '*', ')', ')', '|',
        '(', '[', '-', '-', 'z', ']', ')', ')', '(', '(', 'b', ')', '+', ')'].map Byte.ofChar) =
        .ok (.pattern (.cat [.cat [.alt (.star (.byte 97)) (.range ⟨45, 122, by decide⟩),
          .plus (.byte 98)], .finish])) := by
  have hrange : (range ⟨45, 122, by decide⟩).Spellable :=
    .range (by decide) (ne_ofChar_of_all (by decide)) (ne_ofChar_of_all (by decide))
  have halt := Spellable.alt (.cat (List.cons_ne_nil (.star (.byte 97)) [])
    (List.forall_mem_singleton.mpr (.star (.byte (ne_ofChar_of_all (by decide)))))) hrange
  have h := Spellable.cat (List.cons_ne_nil _ [.plus (.byte 98)])
    (List.forall_mem_cons.mpr ⟨halt,
      List.forall_mem_singleton.mpr (.plus (.byte (ne_ofChar_of_all (by decide))))⟩)
  exact ⟨h, parse_spelled h⟩

end Pattern

end Munch
