import Munch.Proofs.TableEdges
import Munch.Proofs.PositionWords

set_option autoImplicit false

/-! # Expressions with positions

An expression has a position exactly if one of its words has a letter (`Regex.hasLetter_words_iff`),
and then its matches begin and end with some position (`Regex.exists_first_iff`,
`Regex.exists_last_iff`). Within an expression, a position is a last one or has one that comes after
it (`Regex.last_or_adjacent`). In a set of patterns, the end mark comes after the last positions of
a body; so something comes after every position but the end marks
(`Regex.Patterns.exists_adjacent_iff`). -/

namespace Munch

open Computability

/-! ## Words with letters -/

section Letters

variable {α : Type} {L M : Language α}

/-- Some word of a language has a letter. -/
def HasLetter (L : Language α) : Prop := ∃ w ∈ L, w ≠ []

theorem not_hasLetter_one : ¬ HasLetter (1 : Language α) := fun ⟨_, h, hne⟩ => hne h

theorem hasLetter_add_iff : HasLetter (L + M) ↔ HasLetter L ∨ HasLetter M := by
  simp only [HasLetter, Language.mem_add, or_and_right, exists_or]

theorem hasLetter_mul_iff (hL : ∃ w, w ∈ L) (hM : ∃ w, w ∈ M) :
    HasLetter (L * M) ↔ HasLetter L ∨ HasLetter M := by
  obtain ⟨u, hu⟩ := hL
  obtain ⟨v, hv⟩ := hM
  constructor
  · rintro ⟨w, hw, hne⟩
    obtain ⟨a, ha, b, hb, rfl⟩ := Language.mem_mul.mp hw
    by_cases hnil : a = []
    · exact .inr ⟨b, hb, fun h => hne (by rw [hnil, h]; rfl)⟩
    · exact .inl ⟨a, ha, hnil⟩
  · rintro (⟨a, ha, hne⟩ | ⟨b, hb, hne⟩)
    · exact ⟨a ++ v, Language.append_mem_mul ha hv, List.append_ne_nil_of_left_ne_nil hne v⟩
    · exact ⟨u ++ b, Language.append_mem_mul hu hb, List.append_ne_nil_of_right_ne_nil u hne⟩

theorem hasLetter_kstar_iff : HasLetter L∗ ↔ HasLetter L := by
  constructor
  · rintro ⟨w, hw, hne⟩
    obtain ⟨n, hn⟩ := exists_mem_pow hw
    cases w with
    | nil => exact absurd rfl hne
    | cons q v =>
      obtain ⟨v, hv⟩ := begins_of_pow n ⟨v, hn⟩
      exact ⟨q :: v, hv, List.cons_ne_nil q v⟩
  · rintro ⟨w, hw, hne⟩
    exact ⟨w, le_kstar (a := L) hw, hne⟩

end Letters

namespace Regex

/-! ## Expressions with positions -/

theorem exists_mem_words (r : Regex) : ∀ s, ∃ w, w ∈ r.words s := by
  induction r with
  | byte | range | finish => exact fun s => exists_mem_letter
  | oneOf c =>
    exact fun s => ⟨[s], s, Nat.le_refl s,
      Nat.lt_add_of_pos_right (List.length_pos_iff.mpr c.nonempty), rfl⟩
  | cat items ih =>
    intro s
    rw [words]
    induction items generalizing s with
    | nil => exact ⟨[], Language.nil_mem_one⟩
    | cons r rest ihrest =>
      obtain ⟨w, hw⟩ := ih r List.mem_cons_self s
      obtain ⟨v, hv⟩ := ihrest (fun t ht => ih t (List.mem_cons_of_mem r ht)) (s + r.width)
      exact ⟨w ++ v, Language.append_mem_mul hw hv⟩
  | alt a b iha _ | either a b iha _ => exact fun s => (iha s).imp fun _ hw => .inl hw
  | star r => exact fun s => ⟨[], Language.nil_mem_kstar _⟩
  | plus r ih =>
    intro s
    obtain ⟨w, hw⟩ := ih s
    exact ⟨w ++ [], Language.append_mem_mul hw (Language.nil_mem_kstar _)⟩
  | maybe r => exact fun s => ⟨[], .inl Language.nil_mem_one⟩
  | pattern r ih => exact ih

theorem hasLetter_words_iff (r : Regex) : ∀ s, HasLetter (r.words s) ↔ 0 < r.width := by
  induction r with
  | byte | range | finish =>
    exact fun s => iff_of_true ⟨[s], rfl, List.cons_ne_nil s []⟩ Nat.one_pos
  | oneOf c =>
    intro s
    have hpos : 0 < c.set.ranges.length := List.length_pos_iff.mpr c.nonempty
    exact iff_of_true ⟨[s], ⟨s, Nat.le_refl s, Nat.lt_add_of_pos_right hpos, rfl⟩,
      List.cons_ne_nil s []⟩ hpos
  | cat items ih =>
    intro s
    rw [words, width]
    induction items generalizing s with
    | nil => exact iff_of_false not_hasLetter_one (Nat.lt_irrefl 0)
    | cons r rest ihrest =>
      -- A letter of one part is one of the whole, since the other parts have some text.
      have hrest : ∃ w, w ∈ wordsAll (s + r.width) rest := (cat rest).exists_mem_words _
      rw [wordsAll, widthAll, hasLetter_mul_iff (r.exists_mem_words s) hrest,
        ih r List.mem_cons_self, ihrest fun t ht => ih t (List.mem_cons_of_mem r ht)]
      omega
  | alt a b iha ihb | either a b iha ihb =>
    intro s
    rw [words, width, hasLetter_add_iff, iha, ihb]
    omega
  | star r ih => exact fun s => hasLetter_kstar_iff.trans (ih s)
  | plus r ih =>
    intro s
    rw [words, width, hasLetter_mul_iff (r.exists_mem_words s) ⟨[], Language.nil_mem_kstar _⟩,
      hasLetter_kstar_iff, or_self, ih]
  | maybe r ih =>
    intro s
    rw [words, width, hasLetter_add_iff, or_iff_right not_hasLetter_one, ih]
  | pattern r ih => exact ih

theorem exists_first_iff (r : Regex) : ∀ s, (∃ q, r.First s q) ↔ 0 < r.width := by
  have hpos : ∀ {r : Regex} {s q : Nat}, r.First s q → 0 < r.width := fun h => by
    have := within_of_first h
    simp only [Within] at this
    omega
  refine fun s => ⟨fun h => h.elim fun _ => hpos, ?_⟩
  induction r generalizing s with
  | byte | range | finish => exact fun _ => ⟨s, rfl⟩
  | oneOf c => exact fun h => ⟨s, Nat.le_refl s, Nat.lt_add_of_pos_right h⟩
  | cat items ih =>
    intro h
    rw [width] at h
    induction items generalizing s with
    | nil => exact absurd h (Nat.lt_irrefl 0)
    | cons r rest ihrest =>
      rcases r.first_or_nullable s with ⟨q, hq⟩ | hnull
      · exact ⟨q, .inl hq⟩
      · rw [widthAll] at h
        -- An operand without positions is passed, and what is first in the rest is first.
        rcases Nat.eq_zero_or_pos r.width with hzero | hr
        · obtain ⟨q, hq⟩ :=
            ihrest (fun t ht => ih t (List.mem_cons_of_mem r ht)) (s + r.width) (by omega)
          exact ⟨q, .inr ⟨hnull, hq⟩⟩
        · obtain ⟨q, hq⟩ := ih r List.mem_cons_self s hr
          exact ⟨q, .inl hq⟩
  | alt a b iha ihb | either a b iha ihb =>
    intro h
    rw [width] at h
    rcases Nat.eq_zero_or_pos a.width with hzero | ha
    · obtain ⟨q, hq⟩ := ihb (s + a.width) (by omega)
      exact ⟨q, .inr hq⟩
    · obtain ⟨q, hq⟩ := iha s ha
      exact ⟨q, .inl hq⟩
  | star r ih | plus r ih | maybe r ih | pattern r ih => exact ih s

theorem lastAll_or_allNullable {items : List Regex}
    (h : ∀ r ∈ items, ∀ s, (∃ p, r.Last s p) ∨ r.nullable = true) (s : Nat) :
    (∃ p, LastAll s p items) ∨ allNullable items = true := by
  induction items generalizing s with
  | nil => exact .inr rfl
  | cons r rest ih =>
    obtain ⟨hr, hrest⟩ := List.forall_mem_cons.mp h
    rcases ih hrest (s + r.width) with ⟨p, hp⟩ | hall
    · exact .inl ⟨p, .inr hp⟩
    · rcases hr s with ⟨p, hp⟩ | hnull
      · exact .inl ⟨p, .inl ⟨hp, hall⟩⟩
      · exact .inr (by rw [allNullable, hnull, hall]; rfl)

/-- An expression with no position that can come last matches the empty text. -/
theorem last_or_nullable (r : Regex) (s : Nat) : (∃ p, r.Last s p) ∨ r.nullable = true := by
  induction r generalizing s with
  | byte | range | finish => exact .inl ⟨s, rfl⟩
  | oneOf c =>
    exact .inl ⟨s, Nat.le_refl _, Nat.lt_add_of_pos_right (List.length_pos_iff.mpr c.nonempty)⟩
  | cat items ih => exact lastAll_or_allNullable ih s
  | star | maybe => exact .inr rfl
  | plus r ih | pattern r ih => exact ih s
  | alt a b iha ihb | either a b iha ihb =>
    rcases iha s with ⟨p, hp⟩ | hnull
    · exact .inl ⟨p, .inl hp⟩
    · exact .inr (by rw [nullable, hnull, Bool.true_or])

theorem exists_last_iff (r : Regex) : ∀ s, (∃ p, r.Last s p) ↔ 0 < r.width := by
  have hpos : ∀ {r : Regex} {s p : Nat}, r.Last s p → 0 < r.width := fun h => by
    have := within_of_last h
    simp only [Within] at this
    omega
  refine fun s => ⟨fun h => h.elim fun _ => hpos, ?_⟩
  induction r generalizing s with
  | byte | range | finish => exact fun _ => ⟨s, rfl⟩
  | oneOf c => exact fun h => ⟨s, Nat.le_refl s, Nat.lt_add_of_pos_right h⟩
  | cat items ih =>
    intro h
    rw [width] at h
    induction items generalizing s with
    | nil => exact absurd h (Nat.lt_irrefl 0)
    | cons r rest ihrest =>
      -- A match ends in the first item only if nothing of the others is needed.
      have hlast : (∃ p, LastAll (s + r.width) p rest) ∨ allNullable rest = true :=
        lastAll_or_allNullable (fun t _ => t.last_or_nullable) _
      rcases hlast with ⟨p, hp⟩ | hall
      · exact ⟨p, .inr hp⟩
      · rw [widthAll] at h
        rcases Nat.eq_zero_or_pos r.width with hzero | hr
        · obtain ⟨p, hp⟩ :=
            ihrest (fun t ht => ih t (List.mem_cons_of_mem r ht)) (s + r.width) (by omega)
          exact ⟨p, .inr hp⟩
        · obtain ⟨p, hp⟩ := ih r List.mem_cons_self s hr
          exact ⟨p, .inl ⟨hp, hall⟩⟩
  | alt a b iha ihb | either a b iha ihb =>
    intro h
    rw [width] at h
    rcases Nat.eq_zero_or_pos a.width with hzero | ha
    · obtain ⟨p, hp⟩ := ihb (s + a.width) (by omega)
      exact ⟨p, .inr hp⟩
    · obtain ⟨p, hp⟩ := iha s ha
      exact ⟨p, .inl hp⟩
  | star r ih | plus r ih | maybe r ih | pattern r ih => exact ih s

/-! ## What comes after a position -/

/-- A position that no match ends with has one that comes after it. -/
theorem last_or_adjacent (r : Regex) :
    ∀ {s p}, r.Within s p → r.Last s p ∨ ∃ q, r.Adjacent s p q := by
  induction r with
  | byte | range | finish => exact fun h => .inl (Nat.le_antisymm (Nat.le_of_lt_succ h.2) h.1)
  | oneOf c => exact .inl
  | cat items ih =>
    induction items with
    | nil => exact fun h => absurd h.2 (Nat.not_lt.mpr h.1)
    | cons r rest ihrest =>
      intro s p h
      by_cases hlt : p < s + r.width
      · rcases ih r List.mem_cons_self ⟨h.1, hlt⟩ with hl | ⟨q, hq⟩
        -- Where the first item ends the others go on, unless they match the empty text.
        · have hfirst : (∃ q, FirstAll (s + r.width) q rest) ∨ allNullable rest = true :=
            firstAll_or_allNullable (fun t _ => t.first_or_nullable) _
          rcases hfirst with ⟨q, hq⟩ | hall
          · exact .inr ⟨q, .inr (.inl ⟨hl, hq⟩)⟩
          · exact .inl (.inl ⟨hl, hall⟩)
        · exact .inr ⟨q, .inl hq⟩
      · have hwithin : (cat rest).Within (s + r.width) p := ⟨Nat.le_of_not_lt hlt, by
          rw [width, Nat.add_assoc]
          exact h.2⟩
        rcases ihrest (fun t ht => ih t (List.mem_cons_of_mem r ht)) hwithin with hl | ⟨q, hq⟩
        · exact .inl (.inr hl)
        · exact .inr ⟨q, .inr (.inr hq)⟩
  | alt a b iha ihb | either a b iha ihb =>
    intro s p h
    by_cases hlt : p < s + a.width
    · rcases iha ⟨h.1, hlt⟩ with hl | ⟨q, hq⟩
      · exact .inl (.inl hl)
      · exact .inr ⟨q, .inl hq⟩
    · have hwithin : b.Within (s + a.width) p := ⟨Nat.le_of_not_lt hlt, by
        rw [Nat.add_assoc]
        exact h.2⟩
      rcases ihb hwithin with hl | ⟨q, hq⟩
      · exact .inl (.inr hl)
      · exact .inr ⟨q, .inr hq⟩
  | star r ih | plus r ih => exact fun h => (ih h).imp_right (Exists.imp fun _ => .inl)
  | maybe r ih | pattern r ih => exact ih

namespace Patterns

variable {re : Regex} {rs : List Regex} {p : Nat}

theorem within_of_mem_endMarks (h : Patterns re rs) : ∀ {s}, p ∈ re.endMarks s → re.Within s p := by
  induction h with
  | @pattern r hr =>
    intro s hp
    obtain rfl := List.mem_singleton.mp hp
    simp only [Within, width, widthAll]
    omega
  | either _ _ iha ihb =>
    intro s hp
    rcases List.mem_append.mp hp with hp | hp
    · exact (iha hp).left
    · exact (ihb hp).right

/-- The end marks are numbered in the order of their patterns. -/
theorem ascending_endMarks (h : Patterns re rs) : ∀ s, (re.endMarks s).Pairwise (· < ·) := by
  induction h with
  | pattern => exact fun s => List.pairwise_singleton _ _
  | either ha hb iha ihb =>
    intro s
    refine List.pairwise_append.mpr ⟨iha s, ihb _, fun p hp q hq => ?_⟩
    exact Nat.lt_of_lt_of_le (ha.within_of_mem_endMarks hp).2 (hb.within_of_mem_endMarks hq).1

/-- Something comes after every position but the end marks. -/
theorem exists_adjacent_iff (h : Patterns re rs) : ∀ {s}, re.Within s p →
    ((∃ q, re.Adjacent s p q) ↔ p ∉ re.endMarks s) := by
  induction h with
  | @pattern r hr =>
    intro s hp
    have hmark : s + (cat [r, .finish]).width - 1 = s + r.width := rfl
    rw [endMarks, List.mem_singleton, hmark]
    constructor
    · rintro ⟨q, hq⟩ rfl
      -- The end mark is the last position of the pattern, and has no other one behind it.
      rcases hq with hq | ⟨hl, -⟩ | hq | ⟨-, hq⟩ | hq
      · exact absurd (within_of_adjacent hq).1.2 (Nat.lt_irrefl _)
      · exact absurd (within_of_last hl).2 (Nat.lt_irrefl _)
      all_goals exact hq
    · intro hne
      have hlt : p < s + r.width := Nat.lt_of_le_of_ne (Nat.le_of_lt_succ hp.2) hne
      rcases r.last_or_adjacent ⟨hp.1, hlt⟩ with hl | ⟨q, hq⟩
      · exact ⟨s + r.width, .inr (.inl ⟨hl, .inl rfl⟩)⟩
      · exact ⟨q, .inl hq⟩
  | @either a b _ _ ha hb iha ihb =>
    intro s hp
    rw [endMarks, List.mem_append, not_or]
    -- No position is in both sides, so only one of them is asked.
    by_cases hlt : p < s + a.width
    · have hwithin : a.Within s p := ⟨hp.1, hlt⟩
      have hnot : ¬ b.Within (s + a.width) p := hwithin.not_next
      rw [← iha hwithin, and_iff_left (mt hb.within_of_mem_endMarks hnot)]
      exact exists_congr fun q => or_iff_left fun h => hnot (within_of_adjacent h).1
    · have hwithin : b.Within (s + a.width) p := ⟨Nat.le_of_not_lt hlt, by
        rw [Nat.add_assoc]
        exact hp.2⟩
      have hnot : ¬ a.Within s p := fun h => hlt h.2
      rw [← ihb hwithin, and_iff_right (mt ha.within_of_mem_endMarks hnot)]
      exact exists_congr fun q => or_iff_right fun h => hnot (within_of_adjacent h).1

end Patterns

end Regex

end Munch
