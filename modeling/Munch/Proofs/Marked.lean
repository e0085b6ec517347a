import Munch.Proofs.LongestMatch
import Munch.Proofs.Nullability
import Munch.Proofs.Places

set_option autoImplicit false

/-! # Texts that lead to end marks

A table accepts a pattern where an end mark of the pattern can come next, wherever in the pattern
the mark stands. The texts that lead to such a mark are `Regex.marked`: to an end mark in the middle
of a body leads what can be read before it, and what stands behind it is reached as if the mark were
not there. This is so for every expression (`Labelled.mem_run_machine_iff_marked`).

Each set of positions that a table goes through has the positions that can come next after the text
(`Labelled.mem_run_machine_iff`). What can be read before a position (`Regex.before`) is nothing for
a first position, and else it is read before a position that the last byte belongs to, with that
byte (`Regex.readByAdjacent`). -/

namespace Munch

open Computability

namespace Regex

/-! ## Texts before a position -/

mutual

/-- The texts after which position `q` can come next, in an expression whose positions are numbered
    from `s`. -/
def before (s q : Nat) : Regex → Language UInt8
  | .byte _ | .range _ | .finish => ({w | w = [] ∧ q = s} : Set Bytes)
  | .oneOf c => ({w | w = [] ∧ s ≤ q ∧ q < s + c.set.ranges.length} : Set Bytes)
  | .cat items => beforeAll s q items
  | .alt a b | .either a b => before s q a + before (s + a.width) q b
  | .star r | .plus r => (language r)∗ * before s q r
  | .maybe r | .pattern r => before s q r

/-- The texts after which position `q` can come next, in expressions one after the other. -/
def beforeAll (s q : Nat) : List Regex → Language UInt8
  | [] => 0
  | r :: rest => before s q r + language r * beforeAll (s + r.width) q rest

end

variable {s p q : Nat} {w : Bytes} {r : Regex} {rest : List Regex} {L : Language UInt8}

theorem within_of_mem_before (r : Regex) : ∀ {s w}, w ∈ r.before s q → r.Within s q := by
  induction r with
  | byte b => exact fun h => within_leaf rfl h.2
  | range r => exact fun h => within_leaf rfl h.2
  | finish => exact fun h => within_leaf rfl h.2
  | oneOf c => exact fun h => h.2
  | cat items ih =>
    induction items with
    | nil => exact fun h => h.elim
    | cons r rest ihrest =>
      rintro s w (h | h)
      · exact (ih r List.mem_cons_self h).head
      · obtain ⟨_, _, _, h, _⟩ := Language.mem_mul.mp h
        exact (ihrest (fun t ht => ih t (List.mem_cons_of_mem r ht)) h).tail
  | alt a b iha ihb => exact fun h => h.elim (fun h => (iha h).left) fun h => (ihb h).right
  | either a b iha ihb => exact fun h => h.elim (fun h => (iha h).left) fun h => (ihb h).right
  | star r ih | plus r ih =>
    intro s w h
    obtain ⟨_, _, _, h, _⟩ := Language.mem_mul.mp h
    exact ih h
  | maybe r ih => exact ih
  | pattern r ih => exact ih

/-- Nothing has to be read before a first position. -/
theorem nil_mem_before_iff (r : Regex) : ∀ {s}, [] ∈ r.before s q ↔ r.First s q := by
  induction r with
  | byte b => exact and_iff_right rfl
  | range r => exact and_iff_right rfl
  | finish => exact and_iff_right rfl
  | oneOf c => exact and_iff_right rfl
  | cat items ih =>
    induction items with
    | nil => exact Iff.rfl
    | cons r rest ihrest =>
      intro s
      have hrest : [] ∈ beforeAll (s + r.width) q rest ↔ FirstAll (s + r.width) q rest :=
        ihrest fun t ht => ih t (List.mem_cons_of_mem r ht)
      rw [before, beforeAll, Language.mem_add, nil_mem_mul_iff, ih r List.mem_cons_self,
        ← nullable_iff, hrest]
      rfl
  | alt a b iha ihb => exact or_congr iha ihb
  | either a b iha ihb => exact or_congr iha ihb
  | star r ih | plus r ih =>
    intro s
    rw [before, nil_mem_mul_iff, and_iff_right (Language.nil_mem_kstar _)]
    exact ih
  | maybe r ih => exact ih
  | pattern r ih => exact ih

/-! ## The byte at a position -/

/-- The bytes of a position, by what stands at the positions. -/
def letter (views : List (Option ByteRange × Option Nat)) (p : Nat) : Language UInt8 :=
  ({w | ∃ r b, views[p]?.bind (·.1) = some r ∧ b ∈ r ∧ w = [b]} : Set Bytes)

variable {views : List (Option ByteRange × Option Nat)}
    {v v' : List (Option ByteRange × Option Nat)}

theorem prefix_drop_of_append (h : v ++ v' <+: views.drop s) :
    v' <+: views.drop (s + v.length) := by
  have hdrop := h.drop v.length
  rwa [List.drop_left, List.drop_drop] at hdrop

theorem getElem?_of_prefix_drop {i : Nat} (h : v <+: views.drop s) (hi : i < v.length) :
    views[s + i]? = v[i]? := by
  obtain ⟨rest, hrest⟩ := h
  rw [← List.getElem?_drop, ← hrest, List.getElem?_append_left hi]

theorem getElem?_of_singleton_le {x : Option ByteRange × Option Nat} (h : [x] <+: views.drop s) :
    views[s]? = some x := getElem?_of_prefix_drop h Nat.one_pos

theorem mem_letter_iff {x : Option ByteRange} {o : Option Nat} (h : views[p]? = some (x, o)) :
    w ∈ letter views p ↔ ∃ r b, x = some r ∧ b ∈ r ∧ w = [b] := by
  show (∃ r b, views[p]?.bind (·.1) = some r ∧ b ∈ r ∧ w = [b]) ↔ _
  rw [h, Option.bind_some]

theorem mem_mul_of_nil {K : Language UInt8} {P : Prop} (h : ∀ u, u ∈ K ↔ u = [] ∧ P) :
    w ∈ K * L ↔ P ∧ w ∈ L := by
  rw [Language.mem_mul]
  constructor
  · rintro ⟨u, hu, v, hv, rfl⟩
    obtain ⟨rfl, hP⟩ := (h u).mp hu
    exact ⟨hP, hv⟩
  · exact fun ⟨hP, hw⟩ => ⟨[], (h []).mpr ⟨rfl, hP⟩, w, hw, rfl⟩

theorem append_mem_mul_letter_iff {b : UInt8} :
    w ++ [b] ∈ L * letter views p ↔ w ∈ L ∧ [b] ∈ letter views p := by
  constructor
  · intro h
    obtain ⟨u, hu, v, ⟨r, b', hr, hb, rfl⟩, heq⟩ := Language.mem_mul.mp h
    obtain ⟨rfl, hbyte⟩ := List.append_inj' heq rfl
    obtain rfl := List.singleton_inj.mp hbyte
    exact ⟨hu, r, b', hr, hb, rfl⟩
  · exact fun ⟨hw, hb⟩ => Language.append_mem_mul hw hb

/-- A text of several rounds, the last of which is not skipped. -/
theorem exists_last_round (h : w ∈ L∗) (hne : w ≠ []) : ∃ u ∈ L∗, ∃ v ∈ L, v ≠ [] ∧ w = u ++ v := by
  obtain ⟨S, rfl, hS⟩ := Language.mem_kstar_iff_exists_nonempty.mp h
  rcases List.eq_nil_or_concat S with rfl | ⟨S, v, rfl⟩
  · exact absurd rfl hne
  · rw [List.concat_eq_append] at hS ⊢
    obtain ⟨hv, hvne⟩ := hS v (by simp)
    exact ⟨S.flatten, Language.join_mem_kstar fun y hy => (hS y (by simp [hy])).1,
      v, hv, hvne, by simp⟩

/-! ## The last byte of a text -/

theorem within_of_mem_before_mul {K : Language UInt8} (h : w ∈ r.before s p * K) :
    r.Within s p := by
  obtain ⟨_, hu, _⟩ := Language.mem_mul.mp h
  exact within_of_mem_before r hu

theorem mem_beforeAll_mul_iff {K : Language UInt8} : w ∈ (cat (r :: rest)).before s p * K ↔
    w ∈ r.before s p * K ∨ w ∈ r.language * ((cat rest).before (s + r.width) p * K) := by
  rw [before, beforeAll, add_mul, mul_assoc, Language.mem_add, before]

theorem mem_before_alt_mul_iff {a b : Regex} {K : Language UInt8} : w ∈ (alt a b).before s p * K ↔
    w ∈ a.before s p * K ∨ w ∈ b.before (s + a.width) p * K := by
  rw [before, add_mul, Language.mem_add]

/-- The texts of an expression are told by the positions of their last bytes. -/
def EndsAtLast (views : List (Option ByteRange × Option Nat)) (s : Nat) (r : Regex)
    (L : Language UInt8) : Prop :=
  ∀ w, w ∈ L ↔ (w = [] ∧ r.nullable = true) ∨ ∃ p, w ∈ r.before s p * letter views p ∧ r.Last s p

namespace EndsAtLast

variable {M : Language UInt8} {a b : Regex}

theorem leaf (hbefore : ∀ p u, u ∈ r.before s p ↔ u = [] ∧ p = s) (hlast : ∀ p, r.Last s p ↔ p = s)
    (hL : ∀ w, w ∈ L ↔ (w = [] ∧ r.nullable = true) ∨ w ∈ letter views s) :
    EndsAtLast views s r L := by
  intro w
  simp only [mem_mul_of_nil (hbefore _), hlast, hL]
  simp

theorem nil : EndsAtLast views s (.cat []) 1 := by
  intro w
  simp [nullable, allNullable, Last, LastAll]

theorem cons (h : EndsAtLast views s r L) (hL : r.language = L)
    (hrest : EndsAtLast views (s + r.width) (.cat rest) M) :
    EndsAtLast views s (.cat (r :: rest)) (L * M) := by
  intro w
  simp only [mem_beforeAll_mul_iff, hL]
  constructor
  · intro hw
    obtain ⟨u, hu, v, hv, rfl⟩ := Language.mem_mul.mp hw
    rcases (hrest v).mp hv with ⟨rfl, hnullable⟩ | ⟨p, hp, hlast⟩
    · rw [List.append_nil]
      rcases (h u).mp hu with ⟨rfl, hr⟩ | ⟨p, hp, hlast⟩
      · exact .inl ⟨rfl, Bool.and_eq_true_iff.mpr ⟨hr, hnullable⟩⟩
      · exact .inr ⟨p, .inl hp, .inl ⟨hlast, hnullable⟩⟩
    · exact .inr ⟨p, .inr (Language.append_mem_mul hu hp), .inr hlast⟩
  · rintro (⟨rfl, hnullable⟩ | ⟨p, hp | hp, hlast⟩)
    · obtain ⟨hr, hrest'⟩ := Bool.and_eq_true_iff.mp hnullable
      exact Language.append_mem_mul ((h []).mpr (.inl ⟨rfl, hr⟩))
        ((hrest []).mpr (.inl ⟨rfl, hrest'⟩))
    · obtain ⟨hlast, hnullable⟩ := (last_cat_head (within_of_mem_before_mul hp)).mp hlast
      have hw : w ++ [] ∈ L * M :=
        Language.append_mem_mul ((h w).mpr (.inr ⟨p, hp, hlast⟩))
          ((hrest []).mpr (.inl ⟨rfl, hnullable⟩))
      rwa [List.append_nil] at hw
    · obtain ⟨u, hu, v, hv, rfl⟩ := Language.mem_mul.mp hp
      have hlast := (last_cat_tail (within_of_mem_before_mul hv)).mp hlast
      exact Language.append_mem_mul hu ((hrest v).mpr (.inr ⟨p, hv, hlast⟩))

theorem alt (ha : EndsAtLast views s a L) (hb : EndsAtLast views (s + a.width) b M) :
    EndsAtLast views s (.alt a b) (L + M) := by
  intro w
  simp only [mem_before_alt_mul_iff, Language.mem_add, ha w, hb w]
  constructor
  · rintro ((⟨rfl, h⟩ | ⟨p, hp, hlast⟩) | (⟨rfl, h⟩ | ⟨p, hp, hlast⟩))
    · exact .inl ⟨rfl, Bool.or_eq_true_iff.mpr (.inl h)⟩
    · exact .inr ⟨p, .inl hp, .inl hlast⟩
    · exact .inl ⟨rfl, Bool.or_eq_true_iff.mpr (.inr h)⟩
    · exact .inr ⟨p, .inr hp, .inr hlast⟩
  · rintro (⟨rfl, h⟩ | ⟨p, hp | hp, hlast⟩)
    · exact (Bool.or_eq_true_iff.mp h).imp (fun h => .inl ⟨rfl, h⟩) fun h => .inl ⟨rfl, h⟩
    · exact .inl (.inr ⟨p, hp, (last_alt_left (within_of_mem_before_mul hp)).mp hlast⟩)
    · exact .inr (.inr ⟨p, hp, (last_alt_right (within_of_mem_before_mul hp)).mp hlast⟩)

/-- A text of several rounds ends with a round that is not skipped. -/
theorem rounds (h : EndsAtLast views s r r.language) :
    EndsAtLast views s (.plus r) (r.language∗ * r.language) := by
  intro w
  simp only [before, Last, nullable, mul_assoc]
  constructor
  · intro hw
    by_cases hne : w = []
    · subst hne
      exact .inl ⟨rfl, (nullable_iff r).mpr (nil_mem_mul_iff.mp hw).2⟩
    · obtain ⟨u, hu, v, hv, hvne, rfl⟩ :=
        exists_last_round (kstar_mul_le_kstar (a := r.language) hw) hne
      obtain ⟨hnil, _⟩ | ⟨p, hp, hlast⟩ := (h v).mp hv
      · exact absurd hnil hvne
      · exact .inr ⟨p, Language.append_mem_mul hu hp, hlast⟩
  · rintro (⟨rfl, hnullable⟩ | ⟨p, hp, hlast⟩)
    · exact nil_mem_mul_iff.mpr ⟨Language.nil_mem_kstar _, (nullable_iff r).mp hnullable⟩
    · obtain ⟨u, hu, v, hv, rfl⟩ := Language.mem_mul.mp hp
      exact Language.append_mem_mul hu ((h v).mpr (.inr ⟨p, hv, hlast⟩))

theorem plus (h : EndsAtLast views s r r.language) :
    EndsAtLast views s (.plus r) (r.language * r.language∗) := by
  rw [← Language.mul_self_kstar_comm]
  exact h.rounds

/-- An optional expression has the empty text, and else the texts of one that ends with the same
    positions. -/
theorem optional (h : EndsAtLast views s a L) (hnullable : b.nullable = true)
    (hbefore : ∀ p, b.before s p = a.before s p) (hlast : ∀ p, b.Last s p ↔ a.Last s p) :
    EndsAtLast views s b (1 + L) := by
  intro w
  simp only [Language.mem_add, Language.mem_one, h w, hbefore, hlast, hnullable, and_true]
  rw [← or_assoc, or_iff_left_of_imp And.left]

theorem star (h : EndsAtLast views s r r.language) : EndsAtLast views s (.star r) r.language∗ := by
  rw [← Language.one_add_kstar_mul_self_eq_kstar]
  exact h.rounds.optional rfl (fun _ => rfl) fun _ => Iff.rfl

end EndsAtLast

theorem mem_language_oneOf_iff_getElem? {c : ByteClass} : w ∈ (oneOf c).language ↔
    ∃ (i : Nat) (r : ByteRange) (b : UInt8), c.set.ranges[i]? = some r ∧ b ∈ r ∧ w = [b] := by
  rw [mem_language_oneOf]
  simp only [ByteSet.mem_iff_covers, ByteRange.Covers, List.mem_iff_getElem?]
  constructor
  · rintro ⟨b, ⟨r, ⟨i, hi⟩, hb⟩, rfl⟩
    exact ⟨i, r, b, hi, hb, rfl⟩
  · rintro ⟨i, r, b, hi, hb, rfl⟩
    exact ⟨b, ⟨r, ⟨i, hi⟩, hb⟩, rfl⟩

theorem getElem?_class {c : ByteClass} {i : Nat}
    (h : (c.set.ranges.map fun r => (some r, none)) <+: views.drop s)
    (hi : i < c.set.ranges.length) : views[s + i]? = some (some c.set.ranges[i], none) := by
  rw [getElem?_of_prefix_drop h (by simpa using hi), List.getElem?_map,
    List.getElem?_eq_getElem hi, Option.map_some]

/-- The last byte of a text of an expression is one of a last position, read after what comes before
    it. -/
theorem endsAtLast_language (r : Regex) : ∀ owner next s, r.views owner next <+: views.drop s →
    EndsAtLast views s r r.language := by
  induction r with
  | byte b =>
    refine fun owner next s h => .leaf (fun p u => Iff.rfl) (fun p => Iff.rfl) fun w => ?_
    rw [mem_letter_iff (getElem?_of_singleton_le h), mem_language_byte]
    simp [nullable]
  | range r =>
    refine fun owner next s h => .leaf (fun p u => Iff.rfl) (fun p => Iff.rfl) fun w => ?_
    rw [mem_letter_iff (getElem?_of_singleton_le h), mem_language_range]
    simp [nullable]
  | finish =>
    refine fun owner next s h => .leaf (fun p u => Iff.rfl) (fun p => Iff.rfl) fun w => ?_
    rw [mem_letter_iff (getElem?_of_singleton_le h)]
    simp [nullable, language]
  | oneOf c =>
    -- Each range of a class is a position of its own, a first one and a last one.
    intro owner next s h w
    have hmul : ∀ p, w ∈ (oneOf c).before s p * letter views p ↔ (oneOf c).Last s p ∧
        w ∈ letter views p :=
      fun p => mem_mul_of_nil fun u => Iff.rfl
    simp only [hmul, mem_language_oneOf_iff_getElem?]
    constructor
    · rintro ⟨i, r, b, hi, hb, rfl⟩
      obtain ⟨hlt, rfl⟩ := List.getElem?_eq_some_iff.mp hi
      have hlast : (oneOf c).Last s (s + i) := ⟨Nat.le_add_right s i, Nat.add_lt_add_left hlt s⟩
      exact .inr ⟨s + i, ⟨hlast, (mem_letter_iff (getElem?_class h hlt)).mpr ⟨_, b, rfl, hb, rfl⟩⟩,
        hlast⟩
    · rintro (⟨_, hnullable⟩ | ⟨p, ⟨⟨hle, hlt⟩, hp⟩, _⟩)
      · cases hnullable
      · obtain ⟨i, rfl⟩ := Nat.exists_eq_add_of_le hle
        have hlt : i < c.set.ranges.length := Nat.lt_of_add_lt_add_left hlt
        obtain ⟨r, b, hr, hb, rfl⟩ := (mem_letter_iff (getElem?_class h hlt)).mp hp
        exact ⟨i, r, b, by rw [List.getElem?_eq_getElem hlt, hr], hb, rfl⟩
  | cat items ih =>
    induction items with
    | nil => exact fun owner next s h => .nil
    | cons r rest ihrest =>
      intro owner next s h
      have hright := prefix_drop_of_append h
      rw [length_views] at hright
      exact .cons (ih r List.mem_cons_self owner next s ((List.prefix_append _ _).trans h)) rfl
        (ihrest (fun t ht => ih t (List.mem_cons_of_mem r ht)) owner _ _ hright)
  | alt a b iha ihb | either a b iha ihb =>
    intro owner next s h
    have hright := prefix_drop_of_append h
    rw [length_views] at hright
    exact .alt (iha owner next s ((List.prefix_append _ _).trans h)) (ihb owner _ _ hright)
  | star r ih => exact fun owner next s h => (ih owner next s h).star
  | plus r ih => exact fun owner next s h => (ih owner next s h).plus
  | maybe r ih =>
    exact fun owner next s h => (ih owner next s h).optional rfl (fun _ => rfl) fun _ => Iff.rfl
  | pattern r ih => exact fun owner next => ih (some next) (next + 1)

/-! ## The position before the last byte -/

/-- What is read before a position is nothing if it is a first one, and else it is read before a
    position that the position is adjacent to, with a byte of that one. -/
def ReadByAdjacent (views : List (Option ByteRange × Option Nat)) (s : Nat) (r : Regex) : Prop :=
  ∀ q w, w ∈ r.before s q ↔ (w = [] ∧ r.First s q) ∨
    ∃ p, w ∈ r.before s p * letter views p ∧ r.Adjacent s p q

namespace ReadByAdjacent

variable {a b : Regex}

theorem leaf (hbefore : ∀ q u, u ∈ r.before s q ↔ u = [] ∧ r.First s q)
    (hadjacent : ∀ p q, ¬ r.Adjacent s p q) : ReadByAdjacent views s r := by
  intro q w
  simp only [hbefore, hadjacent, and_false, exists_false, or_false]

theorem nil : ReadByAdjacent views s (.cat []) := by
  intro q w
  simp [before, beforeAll, First, FirstAll, Adjacent, AdjacentAll]

theorem cons (h : ReadByAdjacent views s r) (hends : EndsAtLast views s r r.language)
    (hrest : ReadByAdjacent views (s + r.width) (.cat rest)) :
    ReadByAdjacent views s (.cat (r :: rest)) := by
  intro q w
  simp only [mem_beforeAll_mul_iff]
  constructor
  · rintro (hw | hw)
    · rcases (h q w).mp hw with ⟨rfl, hfirst⟩ | ⟨p, hp, hadjacent⟩
      · exact .inl ⟨rfl, .inl hfirst⟩
      · exact .inr ⟨p, .inl hp, .inl hadjacent⟩
    · obtain ⟨u, hu, v, hv, rfl⟩ := Language.mem_mul.mp hw
      rcases (hrest q v).mp hv with ⟨rfl, hfirst⟩ | ⟨p, hp, hadjacent⟩
      -- The position is a first one of the rest, so the last byte is one of the head, if there is
      -- any.
      · rw [List.append_nil]
        rcases (hends u).mp hu with ⟨rfl, hnullable⟩ | ⟨p, hp, hlast⟩
        · exact .inl ⟨rfl, .inr ⟨hnullable, hfirst⟩⟩
        · exact .inr ⟨p, .inl hp, .inr (.inl ⟨hlast, hfirst⟩)⟩
      · exact .inr ⟨p, .inr (Language.append_mem_mul hu hp), .inr (.inr hadjacent)⟩
  · rintro (⟨rfl, hfirst⟩ | ⟨p, hp | hp, hadjacent⟩)
    · exact (nil_mem_before_iff (.cat (r :: rest))).mpr hfirst
    · rcases (adjacent_cat_from_head (within_of_mem_before_mul hp)).mp hadjacent with
        hadjacent | ⟨hlast, hfirst⟩
      · exact .inl ((h q w).mpr (.inr ⟨p, hp, hadjacent⟩))
      · have hw : w ++ [] ∈ r.language * (cat rest).before (s + r.width) q :=
          Language.append_mem_mul ((hends w).mpr (.inr ⟨p, hp, hlast⟩))
            ((nil_mem_before_iff _).mpr hfirst)
        rw [List.append_nil] at hw
        exact .inr hw
    · obtain ⟨u, hu, v, hv, rfl⟩ := Language.mem_mul.mp hp
      have hadjacent := (adjacent_cat_from_tail (within_of_mem_before_mul hv)).mp hadjacent
      exact .inr (Language.append_mem_mul hu ((hrest q v).mpr (.inr ⟨p, hv, hadjacent⟩)))

theorem alt (ha : ReadByAdjacent views s a) (hb : ReadByAdjacent views (s + a.width) b) :
    ReadByAdjacent views s (.alt a b) := by
  intro q w
  simp only [mem_before_alt_mul_iff]
  constructor
  · rintro (hw | hw)
    · rcases (ha q w).mp hw with ⟨rfl, hfirst⟩ | ⟨p, hp, hadjacent⟩
      · exact .inl ⟨rfl, .inl hfirst⟩
      · exact .inr ⟨p, .inl hp, .inl hadjacent⟩
    · rcases (hb q w).mp hw with ⟨rfl, hfirst⟩ | ⟨p, hp, hadjacent⟩
      · exact .inl ⟨rfl, .inr hfirst⟩
      · exact .inr ⟨p, .inr hp, .inr hadjacent⟩
  · rintro (⟨rfl, hfirst⟩ | ⟨p, hp | hp, hadjacent⟩)
    · exact (nil_mem_before_iff (Regex.alt a b)).mpr hfirst
    · exact .inl ((ha q w).mpr
        (.inr ⟨p, hp, (adjacent_alt_from_left (within_of_mem_before_mul hp)).mp hadjacent⟩))
    · exact .inr ((hb q w).mpr
        (.inr ⟨p, hp, (adjacent_alt_from_right (within_of_mem_before_mul hp)).mp hadjacent⟩))

/-- Where a round begins, the last byte is one of the round before it. -/
theorem plus (h : ReadByAdjacent views s r) (hends : EndsAtLast views s r r.language) :
    ReadByAdjacent views s (.plus r) := by
  intro q w
  simp only [before, mul_assoc]
  constructor
  · intro hw
    obtain ⟨u, hu, v, hv, rfl⟩ := Language.mem_mul.mp hw
    rcases (h q v).mp hv with ⟨rfl, hfirst⟩ | ⟨p, hp, hadjacent⟩
    · rw [List.append_nil]
      rcases (hends.star u).mp hu with ⟨rfl, _⟩ | ⟨p, hp, hlast⟩
      · exact .inl ⟨rfl, hfirst⟩
      · rw [before, mul_assoc] at hp
        exact .inr ⟨p, hp, .inr ⟨hlast, hfirst⟩⟩
    · exact .inr ⟨p, Language.append_mem_mul hu hp, .inl hadjacent⟩
  · rintro (⟨rfl, hfirst⟩ | ⟨p, hp, hadjacent⟩)
    · exact (nil_mem_before_iff (Regex.plus r)).mpr hfirst
    · obtain ⟨u, hu, v, hv, rfl⟩ := Language.mem_mul.mp hp
      rcases hadjacent with hadjacent | ⟨hlast, hfirst⟩
      · exact Language.append_mem_mul hu ((h q v).mpr (.inr ⟨p, hv, hadjacent⟩))
      · have hround : v ∈ r.language := (hends v).mpr (.inr ⟨p, hv, hlast⟩)
        have hw : u ++ v ++ [] ∈ r.language∗ * r.before s q :=
          Language.append_mem_mul (kstar_mul_le_kstar (a :=
            r.language) (Language.append_mem_mul hu hround)) ((nil_mem_before_iff r).mpr hfirst)
        rwa [List.append_nil] at hw

end ReadByAdjacent

theorem readByAdjacent (r : Regex) : ∀ owner next s, r.views owner next <+: views.drop s →
    ReadByAdjacent views s r := by
  induction r with
  | byte b => exact fun owner next s h => .leaf (fun q u => Iff.rfl) fun p q => id
  | range r => exact fun owner next s h => .leaf (fun q u => Iff.rfl) fun p q => id
  | finish => exact fun owner next s h => .leaf (fun q u => Iff.rfl) fun p q => id
  | oneOf c => exact fun owner next s h => .leaf (fun q u => Iff.rfl) fun p q => id
  | cat items ih =>
    induction items with
    | nil => exact fun owner next s h => .nil
    | cons r rest ihrest =>
      intro owner next s h
      have hleft : r.views owner next <+: views.drop s := (List.prefix_append _ _).trans h
      have hright := prefix_drop_of_append h
      rw [length_views] at hright
      exact .cons (ih r List.mem_cons_self owner next s hleft)
        (endsAtLast_language r owner next s hleft)
        (ihrest (fun t ht => ih t (List.mem_cons_of_mem r ht)) owner _ _ hright)
  | alt a b iha ihb | either a b iha ihb =>
    intro owner next s h
    have hright := prefix_drop_of_append h
    rw [length_views] at hright
    exact .alt (iha owner next s ((List.prefix_append _ _).trans h)) (ihb owner _ _ hright)
  | star r ih | plus r ih =>
    exact fun owner next s h => (ih owner next s h).plus (endsAtLast_language r owner next s h)
  | maybe r ih => exact ih
  | pattern r ih => exact fun owner next => ih (some next) (next + 1)

/-! ## Texts before marks -/

mutual

/-- The texts after which an end mark of the pattern `k` can come next. The expression is in the
    pattern `owner`, and the patterns in it are numbered from `next` on, each where it begins. -/
def marked (k : Nat) (owner : Option Nat) (next : Nat) : Regex → Language UInt8
  | .byte _ | .range _ | .oneOf _ => 0
  | .finish => if owner = some k then 1 else 0
  | .cat items => markedAll k owner next items
  | .alt a b | .either a b => marked k owner next a + marked k owner (next + a.patternCount) b
  | .star r | .plus r => (language r)∗ * marked k owner next r
  | .maybe r => marked k owner next r
  | .pattern r => marked k (some next) (next + 1) r

/-- The texts after which an end mark of the pattern `k` can come next, in expressions one after the
    other. -/
def markedAll (k : Nat) (owner : Option Nat) (next : Nat) : List Regex → Language UInt8
  | [] => 0
  | r :: rest => marked k owner next r + language r * markedAll k owner (next + r.patternCount) rest

end

/-- The texts before the marks of a pattern are those before the positions that end the pattern. -/
theorem mem_marked_iff {k : Nat} (r : Regex) :
    ∀ owner next s, r.views owner next <+: views.drop s → ∀ w,
    w ∈ r.marked k owner next ↔ ∃ q, w ∈ r.before s q ∧ views[q]?.bind (·.2) = some k := by
  induction r with
  | byte b | range r =>
    intro owner next s h w
    have hview := getElem?_of_singleton_le h
    refine iff_of_false (Language.notMem_zero w) ?_
    rintro ⟨q, ⟨_, rfl⟩, hq⟩
    simp [hview] at hq
  | oneOf c =>
    intro owner next s h w
    refine iff_of_false (Language.notMem_zero w) ?_
    rintro ⟨q, ⟨_, hle, hlt⟩, hq⟩
    obtain ⟨i, rfl⟩ := Nat.exists_eq_add_of_le hle
    simp [getElem?_class h (Nat.lt_of_add_lt_add_left hlt)] at hq
  | finish =>
    intro owner next s h w
    have hview : views[s]?.bind (·.2) = owner := by
      rw [getElem?_of_singleton_le h, Option.bind_some]
    have hbefore : ∀ q, w ∈ finish.before s q ↔ w = [] ∧ q = s := fun q => Iff.rfl
    simp only [marked, hbefore, and_assoc, exists_and_left, exists_eq_left, hview]
    split
    · next howner => exact (and_iff_left howner).symm
    · next howner => exact iff_of_false (Language.notMem_zero w) fun h => howner h.2
  | cat items ih =>
    induction items with
    | nil =>
      exact fun owner next s h w => iff_of_false (Language.notMem_zero w) fun ⟨q, hq, _⟩ => hq
    | cons r rest ihrest =>
      intro owner next s h w
      have hright := prefix_drop_of_append h
      rw [length_views] at hright
      have hr := ih r List.mem_cons_self owner next s ((List.prefix_append _ _).trans h)
      have hrest := ihrest (fun t ht => ih t (List.mem_cons_of_mem r ht)) owner _ _ hright
      rw [marked, markedAll, Language.mem_add, hr]
      simp only [before, beforeAll, Language.mem_add, or_and_right, exists_or]
      -- Before a mark of the rest comes a word of the first operand, as before its position.
      refine or_congr_right ⟨fun hw => ?_, fun ⟨q, hw, hq⟩ => ?_⟩
      · obtain ⟨u, hu, v, hv, rfl⟩ := Language.mem_mul.mp hw
        obtain ⟨q, hq, hmark⟩ := (hrest v).mp hv
        exact ⟨q, Language.append_mem_mul hu hq, hmark⟩
      · obtain ⟨u, hu, v, hv, rfl⟩ := Language.mem_mul.mp hw
        exact Language.append_mem_mul hu ((hrest v).mpr ⟨q, hv, hq⟩)
  | alt a b iha ihb | either a b iha ihb =>
    intro owner next s h w
    have hright := prefix_drop_of_append h
    rw [length_views] at hright
    rw [marked, Language.mem_add, iha owner next s ((List.prefix_append _ _).trans h),
      ihb owner _ _ hright]
    simp only [before, Language.mem_add, or_and_right, exists_or]
  | star r ih | plus r ih =>
    intro owner next s h w
    have hr := ih owner next s h
    rw [marked]
    -- Any number of rounds comes before the one that gets to the mark.
    constructor
    · intro hw
      obtain ⟨u, hu, v, hv, rfl⟩ := Language.mem_mul.mp hw
      obtain ⟨q, hq, hmark⟩ := (hr v).mp hv
      exact ⟨q, Language.append_mem_mul hu hq, hmark⟩
    · rintro ⟨q, hw, hq⟩
      obtain ⟨u, hu, v, hv, rfl⟩ := Language.mem_mul.mp hw
      exact Language.append_mem_mul hu ((hr v).mpr ⟨q, hv, hq⟩)
  | maybe r ih => exact ih
  | pattern r ih => exact fun owner next => ih (some next) (next + 1)

end Regex

/-! ## Tables -/

/-- What holds after a text and a byte holds after the byte in the state after the text. -/
theorem Machine.exists_run_concat_iff {σ : Type} {M : Machine σ} {s : σ} {w : Bytes}
    {b : UInt8} {P : σ → Prop} :
    (∃ u, M.run s (w ++ [b]) = some u ∧ P u) ↔ ∃ t, M.run s w = some t ∧
    ∃ u, M.next? t b = some u ∧ P u := by
  have hrun : ∀ u, M.run s (w ++ [b]) = some u ↔ ∃ t, M.run s w = some t ∧
      M.next? t b = some u := by
    intro u
    simp [run_append, run_cons, Option.bind_eq_some_iff]
  constructor
  · rintro ⟨u, hu, hP⟩
    obtain ⟨t, ht, hnext⟩ := (hrun u).mp hu
    exact ⟨t, ht, u, hnext, hP⟩
  · rintro ⟨t, ht, u, hnext, hP⟩
    exact ⟨u, (hrun u).mpr ⟨t, ht, hnext⟩, hP⟩

namespace Labelled

open Regex

variable {re : Regex} {q : Nat}

theorem span?_eq_some_of_mem_letter {b : UInt8} {p : Nat} :
    [b] ∈ letter (re.desugar.anchor.views none 0) p ↔
      ∃ r, (ofRegex re).span? p = some r ∧ b ∈ r := by
  rw [span?_ofRegex]
  constructor
  · rintro ⟨r, b', hr, hb, heq⟩
    obtain rfl := List.singleton_inj.mp heq
    exact ⟨r, hr, hb⟩
  · exact fun ⟨r, hr, hb⟩ => ⟨r, b, hr, hb, rfl⟩

theorem mem_next_iff {set : IndexSet} {b : UInt8} :
    (∃ next, (ofRegex re).machine.next? set b = some next ∧ q ∈ next) ↔
    ∃ p ∈ set, [b] ∈ letter (re.desugar.anchor.views none 0) p ∧
    re.desugar.anchor.Adjacent 0 p q := by
  have hmem : q ∈ Table.followAll (ofRegex re) (ofRegex re).follow
      (Table.movers (ofRegex re) set b) ↔
        ∃ p ∈ set, [b] ∈ letter (re.desugar.anchor.views none 0) p ∧
      re.desugar.anchor.Adjacent 0 p q := by
    simp only [Table.mem_followAll, Table.mem_movers, mem_follow, positionCount_ofRegex,
      span?_eq_some_of_mem_letter, and_assoc]
    refine and_iff_right_of_imp fun ⟨p, _, _, hadjacent⟩ => ?_
    simpa using (within_of_adjacent hadjacent).2.2
  rw [← hmem]
  by_cases hempty : Table.followAll (ofRegex re) (ofRegex re).follow
    (Table.movers (ofRegex re) set b) = []
  · rw [Table.next?_setMachine_eq_none hempty, hempty]
    simp
  · rw [Table.next?_setMachine_eq_some hempty]
    simp

/-- After a text, a table is at the positions that the text is read before. -/
theorem mem_run_machine_iff (w : Bytes) : ∀ q,
    (∃ set, (ofRegex re).machine.run (ofRegex re).start w = some set ∧ q ∈ set) ↔
      w ∈ re.desugar.anchor.before 0 q := by
  induction w using List.reverseRecOn with
  | nil =>
    intro q
    rw [nil_mem_before_iff, ← mem_start]
    simp
  | append_singleton w b ih =>
    intro q
    have hadjacent : ReadByAdjacent (re.desugar.anchor.views none 0) 0 re.desugar.anchor :=
      readByAdjacent _ none 0 0 List.prefix_rfl
    simp only [Machine.exists_run_concat_iff, mem_next_iff, hadjacent q,
      append_mem_mul_letter_iff, ← ih,
      List.append_eq_nil_iff, List.cons_ne_nil, and_false, false_and, false_or]
    constructor
    · rintro ⟨set, hset, p, hp, hb, hpq⟩
      exact ⟨p, ⟨⟨set, hset, hp⟩, hb⟩, hpq⟩
    · rintro ⟨p, ⟨⟨set, hset, hp⟩, hb⟩, hpq⟩
      exact ⟨set, hset, p, hp, hb, hpq⟩

/-- After a text, a table can end the patterns that have an end mark which the text leads to. -/
theorem mem_run_machine_iff_marked {w : Bytes} {k : Nat} :
    (∃ set, (ofRegex re).machine.run (ofRegex re).start w = some set ∧
      k ∈ set.filterMap (ofRegex re).pattern?) ↔ w ∈ re.desugar.anchor.marked k none 0 := by
  have hmarked := mem_marked_iff (k := k) re.desugar.anchor none 0 0 List.prefix_rfl w
  simp only [hmarked, ← mem_run_machine_iff, List.mem_filterMap, pattern?_ofRegex]
  constructor
  · rintro ⟨set, hset, q, hq, hk⟩
    exact ⟨q, ⟨set, hset, hq⟩, hk⟩
  · rintro ⟨q, ⟨set, hset, hq⟩, hk⟩
    exact ⟨set, hset, q, hq, hk⟩

end Labelled

end Munch
