import Munch.Proofs.Connected
import Munch.Proofs.Nullability

set_option autoImplicit false

/-! # Spelling classes out is a normalization

An expression is normal if no class stands in it (`Regex.hasClass`). Spelling the classes out leaves
none (`hasClass_desugar`), and changes nothing where there is none, so the normal expressions are
the ones that it keeps (`desugar_eq_self_iff`) and to do it again changes nothing
(`desugar_desugar`).

The root of a pattern and the join of a set may come before or after it (`complete_desugar`,
`joinPatterns_desugar`), and the patterns of a set keep their numbers and their words
(`accepts_desugar`). Programs and tables are compiled in different ways: a table is built from an
expression whose classes are spelled out before its roots are marked, a program spells out each
class when the generation comes to it, below the marked roots. Neither of them depends on whether
the classes were spelled out before (`desugar_normalizes`). -/

namespace Munch

namespace Regex

/-! ## Expressions without classes -/

mutual

/-- Whether a class stands anywhere in an expression. -/
def hasClass : Regex → Bool
  | .oneOf _ => true
  | .byte _ | .range _ | .finish => false
  | .cat items => anyClass items
  | .alt a b | .either a b => hasClass a || hasClass b
  | .star r | .plus r | .maybe r | .pattern r => hasClass r

/-- Whether a class stands anywhere in an expression of a list. -/
def anyClass : List Regex → Bool
  | [] => false
  | r :: rest => hasClass r || anyClass rest

end

variable {r : Regex}

theorem anyClass_eq_false_iff {items : List Regex} :
    anyClass items = false ↔ ∀ r ∈ items, r.hasClass = false := by
  induction items with
  | nil => simp [anyClass]
  | cons r rest ih => simp [anyClass, ih]

theorem Plain.hasClass_eq_false (h : r.Plain) : r.hasClass = false := by
  induction h with
  | byte b => rfl
  | range s => rfl
  | cat _ ih => exact anyClass_eq_false_iff.mpr ih
  | alt _ _ iha ihb => exact Bool.or_eq_false_iff.mpr ⟨iha, ihb⟩
  | star _ ih => exact ih
  | plus _ ih => exact ih
  | maybe _ ih => exact ih

/-- No class is left after the classes were spelled out. -/
theorem hasClass_desugar (r : Regex) : r.desugar.hasClass = false := by
  induction r with
  | oneOf c => exact (plain_spelledOut c).hasClass_eq_false
  | byte b => rfl
  | range s => rfl
  | finish => rfl
  | cat items ih =>
    rw [desugar, desugarAll_eq_map]
    exact anyClass_eq_false_iff.mpr (List.forall_mem_map.mpr ih)
  | alt a b iha ihb => exact Bool.or_eq_false_iff.mpr ⟨iha, ihb⟩
  | either a b iha ihb => exact Bool.or_eq_false_iff.mpr ⟨iha, ihb⟩
  | star r ih => exact ih
  | plus r ih => exact ih
  | maybe r ih => exact ih
  | pattern r ih => exact ih

/-- An expression without classes is kept. -/
theorem desugar_of_hasClass (r : Regex) : r.hasClass = false → r.desugar = r := by
  induction r with
  | oneOf c => exact nofun
  | byte b => exact fun _ => rfl
  | range s => exact fun _ => rfl
  | finish => exact fun _ => rfl
  | cat items ih =>
    intro h
    have hkept : ∀ s ∈ items, s.desugar = s := fun s hs => ih s hs (anyClass_eq_false_iff.mp h s hs)
    rw [desugar, desugarAll_eq_map, List.map_congr_left hkept, List.map_id']
  | alt a b iha ihb =>
    intro h
    obtain ⟨ha, hb⟩ := Bool.or_eq_false_iff.mp h
    rw [desugar, iha ha, ihb hb]
  | either a b iha ihb =>
    intro h
    obtain ⟨ha, hb⟩ := Bool.or_eq_false_iff.mp h
    rw [desugar, iha ha, ihb hb]
  | star r ih => exact fun h => congrArg star (ih h)
  | plus r ih => exact fun h => congrArg plus (ih h)
  | maybe r ih => exact fun h => congrArg maybe (ih h)
  | pattern r ih => exact fun h => congrArg pattern (ih h)

/-- The expressions that are kept are those without classes. -/
theorem desugar_eq_self_iff : r.desugar = r ↔ r.hasClass = false :=
  ⟨fun h => h ▸ hasClass_desugar r, desugar_of_hasClass r⟩

/-- To spell classes out twice is to spell them out once. -/
theorem desugar_desugar (r : Regex) : r.desugar.desugar = r.desugar :=
  desugar_of_hasClass _ (hasClass_desugar r)

/-! ## Roots and sets -/

theorem Plain.complete_eq (h : r.Plain) : r.complete = .pattern (.cat [r, .finish]) := by
  cases h <;> rfl

/-- The root of a pattern comes before or after its classes are spelled out. -/
theorem complete_desugar (r : Regex) : r.complete.desugar = r.desugar.complete := by
  cases r with
  | oneOf c => exact (plain_spelledOut c).complete_eq.symm
  | _ => rfl

/-- The join of a set comes before or after its classes are spelled out. -/
theorem joinPatterns_desugar (rs : List Regex) :
    (joinPatterns rs).map desugar = joinPatterns (rs.map desugar) := by
  induction rs with
  | nil => rfl
  | cons r rest ih =>
    rw [List.map_cons, joinPatterns, joinPatterns, ← ih]
    cases joinPatterns rest <;> rfl

theorem Plain.bodies_eq (h : r.Plain) : r.bodies = [r] := by
  cases h <;> rfl

/-- Nothing but the end mark is spelled out as the end mark. -/
theorem eq_finish_of_desugar (h : r.desugar = .finish) : r = .finish := by
  cases r with
  | oneOf c =>
    have hplain := plain_spelledOut c
    rw [← desugar, h] at hplain
    cases hplain
  | _ => simp_all [desugar]

/-- Where an end mark stands after the classes were spelled out, it stood before. -/
theorem exists_eq_cat_finish {s : Regex} (h : r.desugar = .cat [s, .finish]) :
    ∃ t, r = .cat [t, .finish] := by
  cases r with
  | oneOf c =>
    have hplain := plain_spelledOut c
    rw [← desugar, h] at hplain
    cases hplain with
    | cat hitems => cases hitems .finish (by simp)
  | cat items =>
    rw [desugar, desugarAll_eq_map, cat.injEq] at h
    obtain ⟨t, rest, rfl, -, hrest⟩ := List.map_eq_cons_iff.mp h
    obtain ⟨last, others, rfl, hlast, hothers⟩ := List.map_eq_cons_iff.mp hrest
    rw [eq_finish_of_desugar hlast, List.map_eq_nil_iff.mp hothers]
    exact ⟨t, rfl⟩
  | _ => simp [desugar] at h

theorem bodies_pattern (h : ∀ s, r ≠ .cat [s, .finish]) : (pattern r).bodies = [pattern r] := by
  unfold bodies
  split
  · next heq => exact nomatch heq
  · next s heq => exact absurd (pattern.inj heq) (h s)
  · rfl

/-- The bodies of a set are spelled out one by one. -/
theorem bodies_desugar (re : Regex) : re.desugar.bodies = re.bodies.map desugar := by
  induction re with
  | oneOf c => exact (plain_spelledOut c).bodies_eq
  | either a b iha ihb => rw [desugar, bodies, bodies, iha, ihb, List.map_append]
  | pattern r =>
    by_cases h : ∃ s, r = .cat [s, .finish]
    · obtain ⟨s, rfl⟩ := h
      rfl
    · rw [desugar, bodies_pattern fun s hs => h ⟨s, hs⟩,
        bodies_pattern fun s hs => h (exists_eq_cat_finish hs)]
      rfl
  | _ => rfl

/-- Every pattern of a set keeps its number and its words. -/
theorem accepts_desugar {re : Regex} {k : Nat} {w : Bytes} :
    re.desugar.Accepts k w ↔ re.Accepts k w := by
  simp only [Accepts, bodies_desugar, List.getElem?_map, Option.map_eq_some_iff]
  constructor
  · rintro ⟨_, ⟨body, hbody, rfl⟩, hw⟩
    exact ⟨body, hbody, language_desugar body ▸ hw⟩
  · rintro ⟨body, hbody, hw⟩
    exact ⟨_, ⟨body, hbody, rfl⟩, (language_desugar body).symm ▸ hw⟩

end Regex

/-! ## Compilation -/

theorem Labelled.ofRegex_desugar (re : Regex) : ofRegex re.desugar = ofRegex re := by
  rw [ofRegex, ofRegex, Regex.desugar_desugar]

theorem Program.ofRegex_desugar (re : Regex) : ofRegex re.desugar = ofRegex re := by
  rw [ofRegex, ofRegex, ← Regex.anchor_desugar, ofPatterns_desugar]

theorem Table.ofRegex_desugar (re : Regex) : ofRegex re.desugar = ofRegex re := by
  rw [ofRegex, ofRegex, Labelled.ofRegex_desugar]

/-- Spelling classes out is a normalization that keeps what an expression means: no class is left,
    the language, the words of each pattern and the nullability are kept, to do it again changes
    nothing, it commutes with the root of a pattern and the join of a set, and the generated program
    and the table are those of the expression. -/
theorem Regex.desugar_normalizes (re : Regex) (rs : List Regex) :
    re.desugar.hasClass = false ∧
    re.desugar.language = re.language ∧ (∀ k w, re.desugar.Accepts k w ↔ re.Accepts k w) ∧
    re.desugar.nullable = re.nullable ∧
    re.desugar.desugar = re.desugar ∧
    re.complete.desugar = re.desugar.complete ∧ (joinPatterns rs).map desugar =
    joinPatterns (rs.map desugar) ∧ Program.generate re.desugar = Program.generate re ∧
    Table.ofRegex re.desugar = Table.ofRegex re := by
  refine ⟨hasClass_desugar re, language_desugar re, fun _ _ => accepts_desugar, nullable_desugar re,
    desugar_desugar re, complete_desugar re, joinPatterns_desugar rs, ?_, Table.ofRegex_desugar re⟩
  rw [Program.generate_eq, Program.generate_eq, Program.ofRegex_desugar]

end Munch
