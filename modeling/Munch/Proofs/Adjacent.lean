import Mathlib.Tactic.Common
import Munch.Regex.Basic

set_option autoImplicit false

/-! # Adjacent positions of an expression

The leaves of an expression are its positions, numbered from left to right from some first number
on. `First` and `Last` say with which positions a match can begin and end, and `Adjacent` says which
positions a match can go through one after the other. They are defined by recursion on the
expression alone. Both automata are built on them: the sets of a labelled expression are these
(`Proofs.Follow`), and so is what the threads of a program reach (`Proofs.Sites`). -/

namespace Munch.Regex

mutual

/-- The number of positions of an expression. -/
def width : Regex → Nat
  | .byte _ | .range _ | .finish => 1
  | .oneOf c => c.set.ranges.length
  | .cat items => widthAll items
  | .alt a b | .either a b => width a + width b
  | .star r | .plus r | .maybe r | .pattern r => width r

/-- The number of positions of a list of expressions. -/
def widthAll : List Regex → Nat
  | [] => 0
  | r :: rest => width r + widthAll rest

end

mutual

/-- A match of an expression whose positions are numbered from `s` can begin with position `q`. -/
def First (s q : Nat) : Regex → Prop
  | .byte _ | .range _ | .finish => q = s
  | .oneOf c => s ≤ q ∧ q < s + c.set.ranges.length
  | .cat items => FirstAll s q items
  | .alt a b | .either a b => First s q a ∨ First (s + a.width) q b
  | .star r | .plus r | .maybe r | .pattern r => First s q r

/-- A match of expressions one after the other can begin with position `q`. -/
def FirstAll (s q : Nat) : List Regex → Prop
  | [] => False
  | r :: rest => First s q r ∨ (r.nullable = true ∧ FirstAll (s + r.width) q rest)

end

mutual

/-- A match of an expression whose positions are numbered from `s` can end with position `p`. -/
def Last (s p : Nat) : Regex → Prop
  | .byte _ | .range _ | .finish => p = s
  | .oneOf c => s ≤ p ∧ p < s + c.set.ranges.length
  | .cat items => LastAll s p items
  | .alt a b | .either a b => Last s p a ∨ Last (s + a.width) p b
  | .star r | .plus r | .maybe r | .pattern r => Last s p r

/-- A match of expressions one after the other can end with position `p`. -/
def LastAll (s p : Nat) : List Regex → Prop
  | [] => False
  | r :: rest => (Last s p r ∧ allNullable rest = true) ∨ LastAll (s + r.width) p rest

end

mutual

/-- A match of an expression whose positions are numbered from `s` can go through position `p` and
    then at once through position `q`. -/
def Adjacent (s p q : Nat) : Regex → Prop
  | .byte _ | .range _ | .oneOf _ | .finish => False
  | .cat items => AdjacentAll s p q items
  | .alt a b | .either a b => Adjacent s p q a ∨ Adjacent (s + a.width) p q b
  | .star r | .plus r => Adjacent s p q r ∨ (r.Last s p ∧ r.First s q)
  | .maybe r | .pattern r => Adjacent s p q r

/-- A match of expressions one after the other can go through position `p` and then at once through
    position `q`. -/
def AdjacentAll (s p q : Nat) : List Regex → Prop
  | [] => False
  | r :: rest =>
    Adjacent s p q r ∨ (r.Last s p ∧ FirstAll (s + r.width) q rest) ∨
      AdjacentAll (s + r.width) p q rest

end

/-! ## Bounds -/

/-- A position lies in the run of an expression whose positions are numbered from `s`. -/
def Within (r : Regex) (s q : Nat) : Prop := s ≤ q ∧ q < s + r.width

theorem Within.head {r : Regex} {rest : List Regex} {s q : Nat} (h : r.Within s q) :
    (cat (r :: rest)).Within s q := by
  simp only [Within, width, widthAll] at h ⊢
  omega

theorem Within.tail {r : Regex} {rest : List Regex} {s q : Nat}
    (h : (cat rest).Within (s + r.width) q) : (cat (r :: rest)).Within s q := by
  simp only [Within, width, widthAll] at h ⊢
  omega

theorem Within.left {a b : Regex} {s q : Nat} (h : a.Within s q) : (alt a b).Within s q := by
  simp only [Within, width] at h ⊢
  omega

theorem Within.right {a b : Regex} {s q : Nat} (h : b.Within (s + a.width) q) :
    (alt a b).Within s q := by
  simp only [Within, width] at h ⊢
  omega

/-- The runs of neighbours have no position in common. -/
theorem Within.not_next {r t : Regex} {s q : Nat} (h : r.Within s q) :
    ¬ t.Within (s + r.width) q := by
  simp only [Within] at *
  omega

theorem within_leaf {r : Regex} {s q : Nat} (hr : r.width = 1) (h : q = s) : r.Within s q := by
  simp only [Within, hr]
  omega

theorem within_of_first {r : Regex} : ∀ {s q : Nat}, r.First s q → r.Within s q := by
  induction r with
  | byte b => exact within_leaf rfl
  | range r => exact within_leaf rfl
  | finish => exact within_leaf rfl
  | oneOf c => exact id
  | cat items ih =>
    induction items with
    | nil => exact False.elim
    | cons r rest ihrest =>
      intro s q h
      rcases h with h | ⟨_, h⟩
      · exact (ih r (by simp) h).head
      · exact (ihrest (fun r hr => ih r (by simp [hr])) h).tail
  | alt a b iha ihb => exact fun h => h.elim (fun h => (iha h).left) fun h => (ihb h).right
  | either a b iha ihb => exact fun h => h.elim (fun h => (iha h).left) fun h => (ihb h).right
  | star r ih => exact ih
  | plus r ih => exact ih
  | maybe r ih => exact ih
  | pattern r ih => exact ih

theorem within_of_last {r : Regex} : ∀ {s p : Nat}, r.Last s p → r.Within s p := by
  induction r with
  | byte b => exact within_leaf rfl
  | range r => exact within_leaf rfl
  | finish => exact within_leaf rfl
  | oneOf c => exact id
  | cat items ih =>
    induction items with
    | nil => exact False.elim
    | cons r rest ihrest =>
      intro s p h
      rcases h with ⟨h, _⟩ | h
      · exact (ih r (by simp) h).head
      · exact (ihrest (fun r hr => ih r (by simp [hr])) h).tail
  | alt a b iha ihb => exact fun h => h.elim (fun h => (iha h).left) fun h => (ihb h).right
  | either a b iha ihb => exact fun h => h.elim (fun h => (iha h).left) fun h => (ihb h).right
  | star r ih => exact ih
  | plus r ih => exact ih
  | maybe r ih => exact ih
  | pattern r ih => exact ih

theorem within_of_adjacent {r : Regex} : ∀ {s p q : Nat}, r.Adjacent s p q →
    r.Within s p ∧ r.Within s q := by
  induction r with
  | byte b => exact False.elim
  | range r => exact False.elim
  | finish => exact False.elim
  | oneOf c => exact False.elim
  | cat items ih =>
    induction items with
    | nil => exact False.elim
    | cons r rest ihrest =>
      intro s p q h
      -- Both are in the first operand, or on its border to the rest, or both are in the rest.
      rcases h with h | ⟨hp, hq⟩ | h
      · obtain ⟨hp, hq⟩ := ih r (by simp) h
        exact ⟨hp.head, hq.head⟩
      · have hq : (cat rest).First (s + r.width) q := hq
        exact ⟨(within_of_last hp).head, (within_of_first hq).tail⟩
      · obtain ⟨hp, hq⟩ := ihrest (fun r hr => ih r (by simp [hr])) h
        exact ⟨hp.tail, hq.tail⟩
  | alt a b iha ihb =>
    intro s p q h
    rcases h with h | h
    · exact ⟨(iha h).1.left, (iha h).2.left⟩
    · exact ⟨(ihb h).1.right, (ihb h).2.right⟩
  | either a b iha ihb =>
    intro s p q h
    rcases h with h | h
    · exact ⟨(iha h).1.left, (iha h).2.left⟩
    · exact ⟨(ihb h).1.right, (ihb h).2.right⟩
  | star r ih =>
    intro s p q h
    rcases h with h | ⟨hp, hq⟩
    · exact ih h
    · exact ⟨within_of_last hp, within_of_first hq⟩
  | plus r ih =>
    intro s p q h
    rcases h with h | ⟨hp, hq⟩
    · exact ih h
    · exact ⟨within_of_last hp, within_of_first hq⟩
  | maybe r ih => exact ih
  | pattern r ih => exact ih

/-! ## Parts

The parts of an expression have no position in common. So the part that a position lies in decides
what the position is in the expression. -/

section Parts

variable {l r : Regex} {rest : List Regex} {s p q : Nat}

theorem not_first (h : ¬ r.Within s q) : ¬ r.First s q := fun hf => h (within_of_first hf)

theorem not_last (h : ¬ r.Within s p) : ¬ r.Last s p := fun hl => h (within_of_last hl)

theorem not_adjacent_from (h : ¬ r.Within s p) : ¬ r.Adjacent s p q :=
  fun hadj => h (within_of_adjacent hadj).1

theorem not_adjacent_to (h : ¬ r.Within s q) : ¬ r.Adjacent s p q :=
  fun hadj => h (within_of_adjacent hadj).2

theorem first_alt_left (h : l.Within s q) : (alt l r).First s q ↔ l.First s q :=
  or_iff_left (not_first h.not_next)

theorem first_alt_right (h : r.Within (s + l.width) q) :
    (alt l r).First s q ↔ r.First (s + l.width) q :=
  or_iff_right (not_first fun hl => hl.not_next h)

theorem last_alt_left (h : l.Within s p) : (alt l r).Last s p ↔ l.Last s p :=
  or_iff_left (not_last h.not_next)

theorem last_alt_right (h : r.Within (s + l.width) p) :
    (alt l r).Last s p ↔ r.Last (s + l.width) p :=
  or_iff_right (not_last fun hl => hl.not_next h)

theorem adjacent_alt_from_left (h : l.Within s p) :
    (alt l r).Adjacent s p q ↔ l.Adjacent s p q :=
  or_iff_left (not_adjacent_from h.not_next)

theorem adjacent_alt_to_left (h : l.Within s q) :
    (alt l r).Adjacent s p q ↔ l.Adjacent s p q :=
  or_iff_left (not_adjacent_to h.not_next)

theorem adjacent_alt_from_right (h : r.Within (s + l.width) p) :
    (alt l r).Adjacent s p q ↔ r.Adjacent (s + l.width) p q :=
  or_iff_right (not_adjacent_from fun hl => hl.not_next h)

theorem adjacent_alt_to_right (h : r.Within (s + l.width) q) :
    (alt l r).Adjacent s p q ↔ r.Adjacent (s + l.width) p q :=
  or_iff_right (not_adjacent_to fun hl => hl.not_next h)

theorem first_cat_head (h : r.Within s q) : (cat (r :: rest)).First s q ↔ r.First s q :=
  or_iff_left fun hf => not_first (r := cat rest) h.not_next hf.2

theorem first_cat_tail (h : (cat rest).Within (s + r.width) q) :
    (cat (r :: rest)).First s q ↔ r.nullable = true ∧ (cat rest).First (s + r.width) q :=
  or_iff_right (not_first fun hr => hr.not_next h)

theorem last_cat_head (h : r.Within s p) :
    (cat (r :: rest)).Last s p ↔ r.Last s p ∧ (cat rest).nullable = true :=
  or_iff_left (not_last (r := cat rest) h.not_next)

theorem last_cat_tail (h : (cat rest).Within (s + r.width) p) :
    (cat (r :: rest)).Last s p ↔ (cat rest).Last (s + r.width) p :=
  or_iff_right fun hl => not_last (fun hr => hr.not_next h) hl.1

theorem adjacent_cat_from_head (h : r.Within s p) : (cat (r :: rest)).Adjacent s p q ↔
    r.Adjacent s p q ∨ (r.Last s p ∧ (cat rest).First (s + r.width) q) :=
  or_congr_right (or_iff_left (not_adjacent_from (r := cat rest) h.not_next))

theorem adjacent_cat_to_head (h : r.Within s q) :
    (cat (r :: rest)).Adjacent s p q ↔ r.Adjacent s p q := by
  have hfirst : ¬ (cat rest).First (s + r.width) q := not_first h.not_next
  have hadj : ¬ (cat rest).Adjacent (s + r.width) p q := not_adjacent_to h.not_next
  exact or_iff_left fun hq => hq.elim (fun hmeet => hfirst hmeet.2) hadj

theorem adjacent_cat_from_tail (h : (cat rest).Within (s + r.width) p) :
    (cat (r :: rest)).Adjacent s p q ↔ (cat rest).Adjacent (s + r.width) p q := by
  have hout : ¬ r.Within s p := fun hr => hr.not_next h
  exact (or_iff_right (not_adjacent_from hout)).trans
    (or_iff_right fun hmeet => not_last hout hmeet.1)

theorem adjacent_cat_to_tail (h : (cat rest).Within (s + r.width) q) :
    (cat (r :: rest)).Adjacent s p q ↔
      (r.Last s p ∧ (cat rest).First (s + r.width) q) ∨ (cat rest).Adjacent (s + r.width) p q :=
  or_iff_right (not_adjacent_to fun hr => hr.not_next h)

end Parts

end Munch.Regex
