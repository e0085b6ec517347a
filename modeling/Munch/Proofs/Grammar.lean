import Munch.Proofs.Classes
import Munch.Proofs.PatternSet

set_option autoImplicit false

/-! # The grammar of patterns

The parser accepts the texts of a grammar and gives each its tree (`Pattern.parse_eq_ok`). The
grammar is given by derivations, which say how a text is divided and what tree it gets, and know
nothing of offsets, of looking ahead or of what is left of the text.

What the parser leaves tells where it had to stop: behind an item there is no repetition operator,
behind the items of a sequence there is its end, and behind an alternation moreover no bar. Each
production yields exactly the derivations that are followed by such a rest (`item_yields`,
`items_yields`, `alternation_yields`), so each has one derivation at most, and a text has one tree
at most (`Grammar.Alternation.unique`). -/

namespace Munch

namespace Regex

theorem complete_of_isBody {r : Regex} (h : r.isBody = true) :
    r.complete = .pattern (.cat [r, .finish]) := by
  cases r with
  | pattern body => cases h
  | _ => rfl

theorem complete_inj {a b : Regex} :
    pattern (.cat [a, .finish]) = .pattern (.cat [b, .finish]) ↔ a = b := by
  rw [pattern.injEq, cat.injEq, List.cons.injEq, and_iff_left rfl]

end Regex

namespace Pattern

namespace Grammar

/-! ## Derivations -/

/-- The characters that do not stand for themselves. -/
def special : List Char := ['|', '+', '*', '?', '(', ')', '[', ']', '^', '.', '\\']

/-- The repetition operators. -/
def repeaters : List Char := ['*', '+', '?']

/-- The wildcard, a byte, an escape or a class. -/
inductive Symbol : Bytes → Regex → Prop where
  | any : Symbol [Byte.ofChar '.'] .any
  | byte {b : UInt8} (h : ∀ c ∈ special, b ≠ Byte.ofChar c) : Symbol [b] (.byte b)
  | escaped {b c : UInt8} (h : Escaped b c) : Symbol [Byte.ofChar '\\', b] (.byte c)
  | shorthand {b : UInt8} {S : Set UInt8} {r : Regex} (h : Shorthand b S) (hr : AnyOf S r) :
      Symbol [Byte.ofChar '\\', b] r
  | charClass {u : Bytes} {r : Regex} (h : CharClass u r) : Symbol u r

/-- An expression with repetition operators behind it, the first of them innermost. -/
inductive Repeated : Regex → Bytes → Regex → Prop where
  | nil {r : Regex} : Repeated r [] r
  | star {r q : Regex} {u : Bytes} (h : Repeated (.star r) u q) :
      Repeated r (Byte.ofChar '*' :: u) q
  | plus {r q : Regex} {u : Bytes} (h : Repeated (.plus r) u q) :
      Repeated r (Byte.ofChar '+' :: u) q
  | maybe {r q : Regex} {u : Bytes} (h : Repeated (.maybe r) u q) :
      Repeated r (Byte.ofChar '?' :: u) q

mutual

/-- Sequences with bars between them, which nest to the right. -/
inductive Alternation : Bytes → Regex → Prop where
  | single {u : Bytes} {r : Regex} (h : Sequence u r) : Alternation u r
  | alt {u v : Bytes} {left right : Regex} (hleft : Sequence u left)
      (hright : Alternation v right) : Alternation (u ++ Byte.ofChar '|' :: v) (.alt left right)

/-- One or more items; a single item stands for itself. -/
inductive Sequence : Bytes → Regex → Prop where
  | single {u : Bytes} {r : Regex} (h : Item u r) : Sequence u r
  | cat {u : Bytes} {r s : Regex} {rs : List Regex} (h : Items u (r :: s :: rs)) :
      Sequence u (.cat (r :: s :: rs))

/-- The items of a sequence. -/
inductive Items : Bytes → List Regex → Prop where
  | last {u : Bytes} {r : Regex} (h : Item u r) : Items u [r]
  | cons {u v : Bytes} {r : Regex} {rs : List Regex} (h : Item u r) (hitems : Items v rs) :
      Items (u ++ v) (r :: rs)

/-- An atom and the repetition operators behind it. -/
inductive Item : Bytes → Regex → Prop where
  | repeated {u v : Bytes} {r q : Regex} (h : Atom u r) (hq : Repeated r v q) : Item (u ++ v) q

/-- A group, which leaves no node of its own, or a symbol. -/
inductive Atom : Bytes → Regex → Prop where
  | group {u : Bytes} {r : Regex} (h : Alternation u r) :
      Atom (Byte.ofChar '(' :: (u ++ [Byte.ofChar ')'])) r
  | symbol {u : Bytes} {r : Regex} (h : Symbol u r) : Atom u r

end

/-! ## First bytes -/

/-- A byte that neither repeats what is before it nor ends a sequence. -/
def IsFirst (b : UInt8) : Prop := ∀ c ∈ ['|', ')', '*', '+', '?'], b ≠ Byte.ofChar c

-- Only the listed characters are to be looked at, not all that there are.
instance : DecidablePred IsFirst := fun _ => List.decidableBAll _ _

/-- A text starts with a byte that can start an atom. -/
def StartsAtom (u : Bytes) : Prop := ∃ b v, u = b :: v ∧ IsFirst b

variable {u v rest : Bytes} {r q : Regex} {rs : List Regex}

theorem StartsAtom.append (h : StartsAtom u) : StartsAtom (u ++ v) := by
  obtain ⟨b, w, rfl, hb⟩ := h
  exact ⟨b, w ++ v, rfl, hb⟩

theorem Symbol.startsAtom (h : Symbol u r) : StartsAtom u := by
  cases h with
  | any => exact ⟨_, _, rfl, by decide⟩
  | @byte b h =>
    have hspecial : ['|', ')', '*', '+', '?'] ⊆ special := by decide
    exact ⟨_, _, rfl, fun c hc => h c (hspecial hc)⟩
  | escaped h => exact ⟨_, _, rfl, by decide⟩
  | shorthand h hr => exact ⟨_, _, rfl, by decide⟩
  | charClass h => cases h <;> exact ⟨_, _, rfl, by decide⟩

theorem Symbol.ne_nil (h : Symbol u r) : u ≠ [] := by
  obtain ⟨b, v, rfl, -⟩ := h.startsAtom
  exact List.cons_ne_nil b v

theorem Symbol.head?_ne_open (h : Symbol u r) : u.head? ≠ some (Byte.ofChar '(') := by
  cases h with
  | any => decide
  | byte h => exact fun heq => h '(' (by decide) (Option.some.inj heq)
  | escaped h => exact ne_of_beq_false rfl
  | shorthand h hr => exact ne_of_beq_false rfl
  | charClass h => cases h <;> exact ne_of_beq_false rfl

theorem Atom.startsAtom (h : Atom u r) : StartsAtom u := by
  cases h with
  | group h => exact ⟨_, _, rfl, by decide⟩
  | symbol h => exact h.startsAtom

theorem Item.startsAtom (h : Item u r) : StartsAtom u := by
  cases h with
  | repeated h hq => exact h.startsAtom.append

theorem Items.startsAtom (h : Items u rs) : StartsAtom u := by
  cases h with
  | last h => exact h.startsAtom
  | cons h hitems => exact h.startsAtom.append

theorem Sequence.startsAtom (h : Sequence u r) : StartsAtom u := by
  cases h with
  | single h => exact h.startsAtom
  | cat h => exact h.startsAtom

/-- A repetition operator comes first. -/
def RepeatFollows (next : Bytes) : Prop := ∃ c ∈ repeaters, next.head? = some (Byte.ofChar c)

theorem StartsAtom.not_repeatFollows (h : StartsAtom u) : ¬ RepeatFollows u := by
  obtain ⟨b, v, rfl, hb⟩ := h
  rintro ⟨c, hc, heq⟩
  have hrepeaters : repeaters ⊆ ['|', ')', '*', '+', '?'] := by decide
  exact hb c (hrepeaters hc) (Option.some.inj heq)

theorem StartsAtom.endsSequence_eq (h : StartsAtom u) : endsSequence u = false := by
  obtain ⟨b, v, rfl, hb⟩ := h
  simp only [endsSequence, Bool.or_eq_false_iff, beq_eq_false_iff_ne]
  exact ⟨hb '|' (by decide), hb ')' (by decide)⟩

theorem not_repeatFollows_of_endsSequence (h : endsSequence rest = true) :
    ¬ RepeatFollows rest := by
  rintro ⟨c, hc, heq⟩
  obtain ⟨v, rfl⟩ := List.head?_eq_some_iff.mp heq
  have hall : repeaters.all (fun c => !endsSequence [Byte.ofChar c]) = true := by decide
  have hends : (!endsSequence [Byte.ofChar c]) = true := List.all_eq_true.mp hall c hc
  rw [Bool.not_eq_true'] at hends
  exact Bool.false_ne_true (hends.symm.trans h)

end Grammar

open Grammar

variable {n : Nat} {s rest : Bytes} {r q : Regex} {rs : List Regex}

/-! ## Symbols and repetitions -/

theorem isOperator_iff {b : UInt8} :
    isOperator b = true ↔ ∃ c ∈ ['|', '+', '*', '?', '(', ')', ']', '^'], b = Byte.ofChar c := by
  rw [isOperator, List.any_eq_true]
  simp only [beq_iff_eq, @eq_comm _ b]

theorem char_yields : (char n s).Yields r rest ↔ ∃ u, s = u ++ rest ∧ Symbol u r := by
  unfold char
  rw [Attempt.yields_entering]
  refine ⟨fun h => ?_, ?_⟩
  · cases s with
    | nil => exact absurd h Attempt.not_yields_fail
    | cons b s =>
      simp only [beq_iff_eq] at h
      split_ifs at h with hopen hdot hback hop
      · obtain rfl := hopen
        obtain ⟨u, rfl, hu⟩ := charClass_yields.mp (Attempt.yields_weaken.mp h)
        exact ⟨_, rfl, .charClass hu⟩
      · obtain rfl := hdot
        obtain ⟨rfl, rfl⟩ := Attempt.yields_done.mp h
        exact ⟨_, rfl, .any⟩
      · obtain rfl := hback
        obtain ⟨e, t, hlt, hescape, h⟩ := Attempt.yields_andThen.mp h
        obtain ⟨b, rfl, rfl⟩ := escape_yields.mp (Attempt.yields_weaken.mp hescape)
        simp only at h
        split at h
        · next c hc =>
          obtain ⟨rfl, rfl⟩ := Attempt.yields_done.mp h
          exact ⟨[_, b], rfl, .escaped (escapeOf_eq_byte_iff.mp hc)⟩
        · next set hset =>
          split at h
          · exact absurd h Attempt.not_yields_fail
          · next r' hr =>
            obtain ⟨rfl, rfl⟩ := Attempt.yields_done.mp h
            exact ⟨[_, b], rfl, .shorthand (shorthand_of_escapeOf hset) (anyOf_toSet.mpr hr)⟩
      · exact absurd h Attempt.not_yields_fail
      · obtain ⟨rfl, rfl⟩ := Attempt.yields_done.mp h
        refine ⟨[b], rfl, .byte fun c hc heq => ?_⟩
        -- The special characters are those that the branches before took.
        have hspecial : special ⊆ '[' :: '.' :: '\\' :: ['|', '+', '*', '?', '(', ')',
          ']', '^'] := by decide
        have hmem := hspecial hc
        rw [List.mem_cons, List.mem_cons, List.mem_cons] at hmem
        rcases hmem with rfl | rfl | rfl | hmem
        · exact hopen heq
        · exact hdot heq
        · exact hback heq
        · exact hop (isOperator_iff.mpr ⟨c, hmem, heq⟩)
  · rintro ⟨u, rfl, h⟩
    cases h with
    | any => exact Attempt.yields_done.mpr ⟨rfl, rfl⟩
    | @byte b h =>
      have hop : ¬ isOperator b = true := fun hop => by
        obtain ⟨c, hc, heq⟩ := isOperator_iff.mp hop
        have hspecial : ['|', '+', '*', '?', '(', ')', ']', '^'] ⊆ special := by decide
        exact h c (hspecial hc) heq
      simp only [List.cons_append, List.nil_append, beq_iff_eq]
      rw [if_neg (h '[' (by decide)), if_neg (h '.' (by decide)),
        if_neg (h '\\' (by decide)), if_neg hop]
      exact Attempt.yields_done.mpr ⟨rfl, rfl⟩
    | escaped h =>
      simp only [List.cons_append, List.nil_append, beq_iff_eq]
      rw [if_neg (by decide), if_neg (by decide), if_pos trivial]
      refine .andThen (Attempt.yields_weaken.mpr
        (escape_yields.mpr ⟨_, rfl, escapeOf_eq_byte_iff.mpr h⟩)) ?_
      exact fun _ => Attempt.yields_done.mpr ⟨rfl, rfl⟩
    | shorthand h hr =>
      obtain ⟨set, he, rfl⟩ := exists_escapeOf_of_shorthand h
      simp only [List.cons_append, List.nil_append, beq_iff_eq]
      rw [if_neg (by decide), if_neg (by decide), if_pos trivial]
      refine .andThen (Attempt.yields_weaken.mpr (escape_yields.mpr ⟨_, rfl, he⟩)) fun _ => ?_
      simp only [anyOf_toSet.mp hr]
      exact Attempt.yields_done.mpr ⟨rfl, rfl⟩
    | charClass h =>
      obtain ⟨u, rfl⟩ : ∃ v, u = Byte.ofChar '[' :: v := by cases h <;> exact ⟨_, rfl⟩
      exact (Attempt.yields_weaken (h := Nat.le_succ _)).mpr (charClass_yields.mpr ⟨u, rfl, h⟩)

theorem repeats_of_repeated {u : Bytes} (h : Repeated r u q) (hrest : ¬ RepeatFollows rest) :
    repeats r (u ++ rest) = (q, rest) := by
  induction h with
  | @nil r =>
    cases rest with
    | nil => rfl
    | cons b t =>
      have hb : ∀ c ∈ repeaters, b ≠ Byte.ofChar c :=
        fun c hc heq => hrest ⟨c, hc, congrArg some heq⟩
      simp only [List.nil_append, repeats, beq_iff_eq]
      rw [if_neg (hb '*' (by decide)), if_neg (hb '+' (by decide)), if_neg (hb '?' (by decide))]
  | star h ih => exact ih
  | plus h ih => exact ih
  | maybe h ih => exact ih

/-- As many repetition operators are applied as there are. -/
theorem repeats_spec (r : Regex) (s : Bytes) :
    ∃ u, s = u ++ (repeats r s).2 ∧ Repeated r u (repeats r s).1 ∧
    ¬ RepeatFollows (repeats r s).2 := by
  fun_induction repeats r s with
  | case1 r => exact ⟨[], rfl, .nil, by rintro ⟨c, hc, heq⟩; cases heq⟩
  | case2 r b rest hstar ih =>
    obtain rfl := eq_of_beq hstar
    obtain ⟨u, hu, hr, hnext⟩ := ih
    exact ⟨_ :: u, congrArg _ hu, .star hr, hnext⟩
  | case3 r b rest hstar hplus ih =>
    obtain rfl := eq_of_beq hplus
    obtain ⟨u, hu, hr, hnext⟩ := ih
    exact ⟨_ :: u, congrArg _ hu, .plus hr, hnext⟩
  | case4 r b rest hstar hplus hmaybe ih =>
    obtain rfl := eq_of_beq hmaybe
    obtain ⟨u, hu, hr, hnext⟩ := ih
    exact ⟨_ :: u, congrArg _ hu, .maybe hr, hnext⟩
  | case5 r b rest hstar hplus hmaybe =>
    refine ⟨[], rfl, .nil, ?_⟩
    rintro ⟨c, hc, heq⟩
    obtain rfl := Option.some.inj heq
    simp only [repeaters, List.mem_cons, List.not_mem_nil, or_false] at hc
    rcases hc with rfl | rfl | rfl
    · exact hstar rfl
    · exact hplus rfl
    · exact hmaybe rfl

/-! ## Productions -/

theorem sequence_iff {u : Bytes} : Sequence u r ↔ ∃ rs, Items u rs ∧ sequenceOf rs = r := by
  refine ⟨fun h => ?_, ?_⟩
  · cases h with
    | single h => exact ⟨_, .last h, rfl⟩
    | cat h => exact ⟨_, h, rfl⟩
  · rintro ⟨rs, h, rfl⟩
    cases h with
    | last h => exact .single h
    | @cons u v r rs h hitems =>
      obtain ⟨q, rs, rfl⟩ : ∃ q qs, rs = q :: qs := by cases hitems <;> exact ⟨_, _, rfl⟩
      exact .cat (.cons h hitems)

mutual

/-- An alternation goes on as long as bars follow. -/
theorem alternation_yields (n : Nat) (s : Bytes) {r : Regex} {rest : Bytes} :
    (alternation n s).Yields r rest ↔
      ∃ u, s = u ++ rest ∧ Alternation u r ∧ endsSequence rest = true ∧
    rest.head? ≠ some (Byte.ofChar '|') := by
  rw [alternation, Attempt.yields_entering]
  refine ⟨fun hyields => ?_, ?_⟩
  · obtain ⟨left, t, hlt, hleft, h⟩ := Attempt.yields_andThen.mp hyields
    obtain ⟨u, rfl, hu, hends⟩ := (sequence_yields n s).mp hleft
    simp only at h
    split at h
    · obtain ⟨rfl, rfl⟩ := Attempt.yields_done.mp h
      exact ⟨u, rfl, .single hu, hends, nofun⟩
    · next b t =>
      split at h
      · next hbar =>
        obtain rfl := eq_of_beq hbar
        obtain ⟨right, hright, rfl⟩ := Attempt.yields_map.mp h
        obtain ⟨v, rfl, hv, hnext⟩ := (alternation_yields n t).mp (Attempt.yields_weaken.mp hright)
        exact ⟨u ++ Byte.ofChar '|' :: v, by simp, .alt hu hv, hnext⟩
      · next hbar =>
        obtain ⟨rfl, rfl⟩ := Attempt.yields_done.mp h
        exact ⟨u, rfl, .single hu, hends, by simpa using hbar⟩
  · rintro ⟨w, hs, halternation, hends, hbar⟩
    cases halternation with
    | single h =>
      refine .andThen ((sequence_yields n s).mpr ⟨w, hs, h, hends⟩) fun _ => ?_
      simp only
      split
      · exact Attempt.yields_done.mpr ⟨rfl, rfl⟩
      · next b t =>
        rw [if_neg (by simpa using hbar)]
        exact Attempt.yields_done.mpr ⟨rfl, rfl⟩
    | @alt u v left right hleft hright =>
      rw [List.append_assoc, List.cons_append] at hs
      refine .andThen ((sequence_yields n s).mpr ⟨u, hs, hleft, rfl⟩) fun hlt => ?_
      refine Attempt.yields_map.mpr ⟨right, Attempt.yields_weaken.mpr ?_, rfl⟩
      -- The bar is taken, so what is left for the rest is shorter.
      have hshorter : v.length + rest.length < s.length := by
        rw [List.length_cons, List.length_append] at hlt
        omega
      exact (alternation_yields n (v ++ rest)).mpr ⟨v, rfl, hright, hends, hbar⟩
termination_by (s.length, 5)

theorem sequence_yields (n : Nat) (s : Bytes) {r : Regex} {rest : Bytes} :
    (sequence n s).Yields r rest ↔
      ∃ u, s = u ++ rest ∧ Sequence u r ∧ endsSequence rest = true := by
  rw [sequence, Attempt.yields_entering]
  refine ⟨fun h => ?_, ?_⟩
  · split at h
    · exact absurd h Attempt.not_yields_fail
    · obtain ⟨rs, hitems, rfl⟩ := Attempt.yields_map.mp h
      obtain ⟨u, rfl, hu, hends⟩ := (items_yields n s).mp hitems
      exact ⟨u, rfl, sequence_iff.mpr ⟨rs, hu, rfl⟩, hends⟩
  · rintro ⟨u, hs, hu, hends⟩
    have hstarts : StartsAtom s := hs ▸ hu.startsAtom.append
    rw [hstarts.endsSequence_eq, if_neg Bool.false_ne_true]
    obtain ⟨rs, hitems, rfl⟩ := sequence_iff.mp hu
    exact Attempt.yields_map.mpr ⟨rs, (items_yields n s).mpr ⟨u, hs, hitems, hends⟩, rfl⟩
termination_by (s.length, 4)

/-- The items of a sequence go on up to its end. -/
theorem items_yields (n : Nat) (s : Bytes) {rs : List Regex} {rest : Bytes} :
    (items n s).Yields rs rest ↔ ∃ u, s = u ++ rest ∧ Items u rs ∧ endsSequence rest = true := by
  rw [items]
  refine ⟨fun hyields => ?_, ?_⟩
  · obtain ⟨r, t, hlt, hitem, h⟩ := Attempt.yields_andThen.mp hyields
    obtain ⟨u, rfl, hu, -⟩ := (item_yields n s).mp hitem
    split at h
    · next hends =>
      obtain ⟨rfl, rfl⟩ := Attempt.yields_done.mp h
      exact ⟨u, rfl, .last hu, hends⟩
    · obtain ⟨rs, hitems, rfl⟩ := Attempt.yields_map.mp h
      obtain ⟨v, rfl, hv, hends⟩ := (items_yields n t).mp (Attempt.yields_weaken.mp hitems)
      exact ⟨u ++ v, by simp, .cons hu hv, hends⟩
  · rintro ⟨w, hs, hitems, hends⟩
    cases hitems with
    | last h =>
      have hnext := not_repeatFollows_of_endsSequence hends
      refine .andThen ((item_yields n s).mpr ⟨w, hs, h, hnext⟩) fun _ => ?_
      rw [if_pos hends]
      exact Attempt.yields_done.mpr ⟨rfl, rfl⟩
    | @cons u v r rs h hitems =>
      have hstarts : StartsAtom (v ++ rest) := hitems.startsAtom.append
      rw [List.append_assoc] at hs
      refine .andThen ((item_yields n s).mpr ⟨u, hs, h, hstarts.not_repeatFollows⟩) fun hlt => ?_
      rw [hstarts.endsSequence_eq, if_neg Bool.false_ne_true]
      refine Attempt.yields_map.mpr ⟨rs, Attempt.yields_weaken.mpr ?_, rfl⟩
      have hshorter : v.length + rest.length < s.length := by rwa [List.length_append] at hlt
      exact (items_yields n (v ++ rest)).mpr ⟨v, rfl, hitems, hends⟩
termination_by (s.length, 3)

/-- An item takes all the repetition operators behind its atom. -/
theorem item_yields (n : Nat) (s : Bytes) {r : Regex} {rest : Bytes} : (item n s).Yields r rest ↔
    ∃ u, s = u ++ rest ∧ Item u r ∧ ¬ RepeatFollows rest := by
  rw [item, Attempt.yields_entering]
  refine ⟨fun hyields => ?_, ?_⟩
  · obtain ⟨q, t, hlt, hatom, h⟩ := Attempt.yields_andThen.mp hyields
    obtain ⟨u, rfl, hu⟩ := (atom_yields n s).mp hatom
    obtain ⟨rfl, rfl⟩ := Attempt.yields_done.mp h
    obtain ⟨v, hv, hq, hnext⟩ := repeats_spec q t
    exact ⟨u ++ v, by rw [List.append_assoc, ← hv], .repeated hu hq, hnext⟩
  · rintro ⟨w, hs, hitem, hnext⟩
    cases hitem with
    | @repeated u v q _ h hq =>
      rw [List.append_assoc] at hs
      refine .andThen ((atom_yields n s).mpr ⟨u, hs, h⟩) fun _ => ?_
      have heq : repeats q (v ++ rest) = (r, rest) := repeats_of_repeated hq hnext
      exact Attempt.yields_done.mpr ⟨congrArg Prod.fst heq, congrArg Prod.snd heq⟩
termination_by (s.length, 2)

theorem atom_yields (n : Nat) (s : Bytes) {r : Regex} {rest : Bytes} : (atom n s).Yields r rest ↔
    ∃ u, s = u ++ rest ∧ Atom u r := by
  unfold atom
  rw [Attempt.yields_entering]
  refine ⟨fun h => ?_, ?_⟩
  · split at h
    · obtain ⟨u, hu, h⟩ := char_yields.mp h
      exact ⟨u, hu, .symbol h⟩
    · next b t =>
      split at h
      · next hopen =>
        obtain rfl := eq_of_beq hopen
        obtain ⟨u, rfl, hu⟩ := (group_yields n t).mp (Attempt.yields_weaken.mp h)
        exact ⟨_, by simp, .group hu⟩
      · obtain ⟨u, hu, h⟩ := char_yields.mp h
        exact ⟨u, hu, .symbol h⟩
  · rintro ⟨w, hs, hatom⟩
    cases hatom with
    | @group u r h =>
      rw [List.cons_append, List.append_assoc, List.singleton_append] at hs
      split
      · cases hs
      · next b t =>
        obtain ⟨rfl, rfl⟩ := List.cons.inj hs
        have hgroup := (group_yields n (u ++ Byte.ofChar ')' :: rest)).mpr ⟨u, rfl, h⟩
        exact (Attempt.yields_weaken (h := Nat.le_succ _)).mpr hgroup
    | symbol h =>
      have hchar := (char_yields (n := n)).mpr ⟨w, hs, h⟩
      split
      · exact hchar
      · next b t =>
        -- A symbol does not begin with a parenthesis, so it is not taken for a group.
        have hopen := h.head?_ne_open
        obtain ⟨c, w, rfl⟩ := List.exists_cons_of_ne_nil h.ne_nil
        obtain ⟨rfl, rfl⟩ := List.cons.inj hs
        rw [if_neg (by simpa using hopen)]
        exact hchar
termination_by (s.length, 1)

/-- A group is an alternation and the parenthesis that closes it. -/
theorem group_yields (n : Nat) (s : Bytes) {r : Regex} {rest : Bytes} : (group n s).Yields r rest ↔
    ∃ u, s = u ++ Byte.ofChar ')' :: rest ∧ Alternation u r := by
  rw [group, Attempt.yields_entering]
  refine ⟨fun hyields => ?_, ?_⟩
  · obtain ⟨q, t, hlt, hbody, h⟩ := Attempt.yields_andThen.mp hyields
    obtain ⟨u, rfl, hu, -⟩ := (alternation_yields n s).mp (Attempt.yields_orElse.mp hbody)
    simp only at h
    split at h
    · exact absurd h Attempt.not_yields_fail
    · next b t =>
      split at h
      · next hclose =>
        obtain rfl := eq_of_beq hclose
        obtain ⟨rfl, rfl⟩ := Attempt.yields_done.mp h
        exact ⟨u, rfl, hu⟩
      · exact absurd h Attempt.not_yields_fail
  · rintro ⟨u, hs, hu⟩
    have hbody := (alternation_yields n s).mpr ⟨u, hs, hu, rfl, by simp⟩
    refine .andThen (Attempt.yields_orElse.mpr hbody) fun _ => ?_
    exact Attempt.yields_done.mpr ⟨rfl, rfl⟩
termination_by (s.length, 6)

end

/-! ## Trees -/

namespace Grammar

theorem AnyOf.isBody {S : Set UInt8} (h : AnyOf S r) : r.isBody = true := by
  obtain ⟨set, -, hr⟩ := h
  unfold Regex.ofSet? at hr
  split at hr
  · cases hr
  · split at hr
    · obtain rfl := Option.some.inj hr
      unfold Regex.ofRange
      split <;> rfl
    · obtain rfl := Option.some.inj hr
      rfl

theorem Symbol.isBody {u : Bytes} (h : Symbol u r) : r.isBody = true := by
  cases h with
  | any => rfl
  | byte h => rfl
  | escaped h => rfl
  | shorthand h hr => exact hr.isBody
  | charClass h =>
    cases h with
    | plain h hu hr => exact hr.isBody
    | negated h hr => exact hr.isBody

theorem Repeated.isBody {u : Bytes} (h : Repeated r u q) (hr : r.isBody = true) :
    q.isBody = true := by
  induction h with
  | nil => exact hr
  | star h ih => exact ih hr
  | plus h ih => exact ih hr
  | maybe h ih => exact ih hr

mutual

/-- The tree of a derivation is the body of a pattern. -/
theorem Alternation.isBody {u : Bytes} {r : Regex} : Alternation u r → r.isBody = true
  | .single h => h.isBody
  | .alt hleft hright => Bool.and_eq_true_iff.mpr ⟨hleft.isBody, hright.isBody⟩

theorem Sequence.isBody {u : Bytes} {r : Regex} : Sequence u r → r.isBody = true
  | .single h => h.isBody
  | .cat h => h.allBodies

theorem Items.allBodies {u : Bytes} {rs : List Regex} : Items u rs → Regex.allBodies rs = true
  | .last h => Bool.and_eq_true_iff.mpr ⟨h.isBody, rfl⟩
  | .cons h hitems => Bool.and_eq_true_iff.mpr ⟨h.isBody, hitems.allBodies⟩

theorem Item.isBody {u : Bytes} {r : Regex} : Item u r → r.isBody = true
  | .repeated h hq => hq.isBody h.isBody

theorem Atom.isBody {u : Bytes} {r : Regex} : Atom u r → r.isBody = true
  | .group h => h.isBody
  | .symbol h => h.isBody

end

end Grammar

/-- An alternation is parsed from a whole text if and only if it derives the text. -/
theorem alternation_yields_nil : (alternation n s).Yields r [] ↔ Alternation s r := by
  rw [alternation_yields]
  refine ⟨?_, fun h => ⟨s, (List.append_nil s).symm, h, rfl, nofun⟩⟩
  rintro ⟨u, rfl, h, -, -⟩
  rwa [List.append_nil]

/-- What is parsed is the tree of a derivation, as a complete pattern. -/
theorem parse_eq_ok_iff :
    parse s = .ok r ↔ ∃ body, Alternation s body ∧ r = .pattern (.cat [body, .finish]) := by
  unfold parse attempt
  refine ⟨fun h => ?_, ?_⟩
  · cases hbody : (alternation s.length s).result with
    | error e =>
      simp only [hbody] at h
      cases h
    | ok x =>
      have hyields := Attempt.yields_of_result hbody
      simp only [hbody] at h
      split at h
      · next hrest =>
        rw [hrest, alternation_yields_nil] at hyields
        exact ⟨x.value, hyields,
          (Except.ok.inj h).symm.trans (Regex.complete_of_isBody hyields.isBody)⟩
      · cases h
  · rintro ⟨body, h, rfl⟩
    obtain ⟨_, hbody⟩ := (alternation_yields_nil (n := s.length)).mpr h
    simp only [hbody, Regex.complete_of_isBody h.isBody]

/-- A text has one tree at most. -/
theorem Grammar.Alternation.unique {a b : Regex} (ha : Alternation s a) (hb : Alternation s b) :
    a = b := by
  obtain ⟨_, ha⟩ := (alternation_yields_nil (n := s.length)).mpr ha
  obtain ⟨_, hb⟩ := (alternation_yields_nil (n := s.length)).mpr hb
  exact congrArg Success.value (Except.ok.inj (ha.symm.trans hb))

/-- The parser accepts exactly the texts that the grammar derives, and returns their trees. -/
theorem parse_eq_ok (s : Bytes) (body : Regex) :
    parse s = .ok (.pattern (.cat [body, .finish])) ↔ Alternation s body := by
  rw [parse_eq_ok_iff]
  refine ⟨?_, fun h => ⟨body, h, rfl⟩⟩
  rintro ⟨b, h, heq⟩
  rwa [Regex.complete_inj.mp heq]

end Pattern

end Munch
