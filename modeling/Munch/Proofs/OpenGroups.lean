import Mathlib.Data.List.Induction
import Munch.Proofs.Grammar

set_option autoImplicit false

/-! # The groups open at a place of a pattern

Which groups are open at a place of a text can be told without parsing it. The text is read byte by
byte, and all that is kept is how the next byte is to be read, as one of a class, behind a backslash
or otherwise, and the offsets of the parentheses that are not closed yet (`Pattern.reading`,
`Pattern.openGroups`).

What the grammar derives is read from outside of classes to outside of classes, and opens no group
that it does not close (`Grammar.Alternation.read`). -/

namespace Munch

namespace Pattern

open Grammar

/-! ## Reading a text -/

/-- How the next byte of a text is to be read. In a class, the offset of its bracket is known. -/
inductive Mode where
  /-- An item has to come: at the start of a text or a group, or behind a bar. -/
  | start
  /-- Something of a sequence was read. -/
  | behind
  | escape
  /-- Behind the bracket of a class, where a caret negates it. -/
  | openedClass (k : Nat)
  /-- Behind the caret of a negated class. -/
  | negatedClass (k : Nat)
  /-- Behind something of a class, where a bracket closes it. -/
  | insideClass (k : Nat)
  | escapeInClass (k : Nat)
deriving DecidableEq

namespace Mode

/-- Neither in a class nor behind a backslash. -/
def isOutside : Mode → Bool
  | .start | .behind => true
  | _ => false

/-- The offset of the class to which the next byte belongs. -/
def class? : Mode → Option Nat
  | .openedClass k | .negatedClass k | .insideClass k | .escapeInClass k => some k
  | _ => none

/-- The mode behind a byte at an offset. -/
def next (offset : Nat) (b : UInt8) : Mode → Mode
  | .start | .behind =>
    if b = Byte.ofChar '\\' then .escape
    else if b = Byte.ofChar '[' then .openedClass offset
    else if b = Byte.ofChar '(' ∨ b = Byte.ofChar '|' then .start
    else .behind
  | .escape => .behind
  | .openedClass k =>
    if b = Byte.ofChar '^' then .negatedClass k else if b = Byte.ofChar '\\'
      then .escapeInClass k else .insideClass k
  | .negatedClass k => if b = Byte.ofChar '\\' then .escapeInClass k else .insideClass k
  | .insideClass k =>
    if b = Byte.ofChar ']' then .behind else if b = Byte.ofChar '\\'
      then .escapeInClass k else .insideClass k
  | .escapeInClass k => .insideClass k

variable {m : Mode} {n k : Nat} {b : UInt8}

theorem not_isOutside_of_class? (h : m.class? = some k) : ¬ m.isOutside = true := by
  cases m with
  | start | behind => cases h
  | _ => exact Bool.false_ne_true

theorem next_of_isOutside (h : m.isOutside = true) : m.next n b = Mode.start.next n b := by
  cases m with
  | start | behind => rfl
  | _ => cases h

/-- A class goes on, or it starts with the byte. -/
theorem class?_of_next (h : (m.next n b).class? = some k) :
    m.class? = some k ∨ m.isOutside = true ∧ b = Byte.ofChar '[' ∧ k = n := by
  cases m with
  | start | behind =>
    simp only [next] at h
    split_ifs at h with hback hopen
    · cases h
    · exact .inr ⟨rfl, hopen, (Option.some.inj h).symm⟩
    · cases h
    · cases h
  | escape => cases h
  | openedClass j =>
    simp only [next] at h
    split_ifs at h <;> exact .inl h
  | negatedClass j =>
    simp only [next] at h
    split_ifs at h <;> exact .inl h
  | insideClass j =>
    simp only [next] at h
    split_ifs at h with hclose
    · cases h
    · exact .inl h
    · exact .inl h
  | escapeInClass j => exact .inl h

end Mode

/-- How far a text is read, how to read on, and the offsets of the parentheses that are open, the
    outermost first. -/
structure Reading where
  offset : Nat
  mode : Mode
  opened : List Nat
deriving DecidableEq

namespace Reading

/-- Read a byte. Only outside of classes and escapes does a parenthesis open or close a group. -/
def next (st : Reading) (b : UInt8) : Reading where
  offset := st.offset + 1
  mode := st.mode.next st.offset b
  opened :=
    if st.mode.isOutside = true ∧ b = Byte.ofChar '(' then st.opened ++ [st.offset]
    else if st.mode.isOutside = true ∧ b = Byte.ofChar ')' then st.opened.dropLast
    else st.opened

/-- A byte that opens and closes no group. -/
theorem next_eq (st : Reading) {b : UInt8}
    (h : st.mode.isOutside = true → b ≠ Byte.ofChar '(' ∧ b ≠ Byte.ofChar ')') :
    st.next b = ⟨st.offset + 1, st.mode.next st.offset b, st.opened⟩ := by
  rw [next, if_neg fun hb => (h hb.1).1 hb.2, if_neg fun hb => (h hb.1).2 hb.2]

/-- Read the bytes of a text. -/
def nextAll (st : Reading) (u : Bytes) : Reading := u.foldl next st

end Reading

/-- What is known after a text is read. -/
def reading (u : Bytes) : Reading := Reading.nextAll ⟨0, .start, []⟩ u

/-- The offsets of the groups that are open behind a text, the outermost first. -/
def openGroups (u : Bytes) : List Nat := (reading u).opened

/-! ## Offsets of open groups -/

variable {u v : Bytes} {b : UInt8} {k : Nat}

@[simp] theorem reading_append (u v : Bytes) : reading (u ++ v) = (reading u).nextAll v :=
  List.foldl_append

@[simp] theorem offset_reading (u : Bytes) : (reading u).offset = u.length := by
  induction u using List.reverseRecOn with
  | nil => rfl
  | append_singleton u b ih =>
    rw [reading_append, List.length_append, ← ih]
    rfl

theorem openGroups_append_singleton (u : Bytes) (b : UInt8) :
    openGroups (u ++ [b]) = openGroups u ++ [u.length] ∨
      openGroups (u ++ [b]) = (openGroups u).dropLast ∨ openGroups (u ++ [b]) = openGroups u := by
  have hnext : openGroups (u ++ [b]) = ((reading u).next b).opened :=
    congrArg Reading.opened (reading_append u [b])
  rw [hnext, Reading.next, offset_reading]
  split
  · exact .inl rfl
  · split
    · exact .inr (.inl rfl)
    · exact .inr (.inr rfl)

/-- The parentheses that are open behind a text stand in it, those of inner groups further
    behind. -/
theorem pairwise_openGroups (u : Bytes) : (openGroups u ++ [u.length]).Pairwise (· < ·) := by
  have hsucc : ∀ {l : List Nat} {n : Nat}, (l ++ [n]).Pairwise (· < ·) →
      (l ++ [n + 1]).Pairwise (· < ·) := by
    intro l n h
    simp only [List.pairwise_append, List.mem_singleton, forall_eq] at h ⊢
    exact ⟨h.1, List.pairwise_singleton _ _, fun m hm => Nat.lt_succ_of_lt (h.2.2 m hm)⟩
  induction u using List.reverseRecOn with
  | nil => exact List.pairwise_singleton _ _
  | append_singleton u b ih =>
    rw [List.length_append, List.length_singleton]
    rcases openGroups_append_singleton u b with h | h | h
    · rw [h]
      simp only [List.pairwise_append, List.mem_append, List.mem_singleton, forall_eq] at ih ⊢
      refine ⟨ih, List.pairwise_singleton _ _, ?_⟩
      rintro _ (hm | rfl)
      · exact Nat.lt_succ_of_lt (ih.2.2 _ hm)
      · exact Nat.lt_succ_self _
    · rw [h]
      exact hsucc (ih.sublist ((List.dropLast_sublist _).append_right _))
    · rw [h]
      exact hsucc ih

theorem lt_of_mem_openGroups (h : k ∈ openGroups u) : k < u.length :=
  (List.pairwise_append.mp (pairwise_openGroups u)).2.2 k h _ (List.mem_singleton_self _)

/-- No group is opened or closed in a class. -/
theorem openGroups_of_class (h : (reading u).mode.class? = some k) :
    k < u.length ∧ openGroups u = openGroups (u.take k) := by
  induction u using List.reverseRecOn with
  | nil => cases h
  | append_singleton u b ih =>
    have hnext : reading (u ++ [b]) = (reading u).next b := reading_append u [b]
    rw [hnext] at h
    rw [openGroups, hnext, List.length_append, List.length_singleton]
    rcases Mode.class?_of_next h with hin | ⟨-, rfl, hk⟩
    · obtain ⟨hlt, hopened⟩ := ih hin
      rw [Reading.next_eq _ fun h => absurd h (Mode.not_isOutside_of_class? hin),
        List.take_append_of_le_length hlt.le]
      exact ⟨Nat.lt_succ_of_lt hlt, hopened⟩
    · rw [offset_reading] at hk
      rw [Reading.next_eq _ fun _ => by decide, hk, List.take_left]
      exact ⟨Nat.lt_succ_self _, rfl⟩

/-! ## Reading what the grammar derives -/

/-- In the class at `k`, what follows is read as an item. -/
inductive Mode.StartsItem (k : Nat) (u : Bytes) : Mode → Prop where
  | opened (h : u.head? ≠ some (Byte.ofChar '^')) : StartsItem k u (.openedClass k)
  | negated : StartsItem k u (.negatedClass k)
  | inside (h : u.head? ≠ some (Byte.ofChar ']')) : StartsItem k u (.insideClass k)

theorem Mode.StartsItem.eq_or {m : Mode} (h : m.StartsItem k u) :
    m = .insideClass k ∨ m = .openedClass k ∨ m = .negatedClass k := by
  cases h with
  | opened h => exact .inr (.inl rfl)
  | negated => exact .inr (.inr rfl)
  | inside h => exact .inl rfl

theorem Mode.StartsItem.class?_eq {m : Mode} (h : m.StartsItem k u) : m.class? = some k := by
  cases h <;> rfl

theorem Mode.StartsItem.next_eq {m : Mode} {n : Nat} (h : m.StartsItem k (b :: u))
    (hb : b ≠ Byte.ofChar '\\') : m.next n b = .insideClass k := by
  cases h with
  | opened h => exact (if_neg fun heq => h (congrArg some heq)).trans (if_neg hb)
  | negated => exact if_neg hb
  | inside h => exact (if_neg fun heq => h (congrArg some heq)).trans (if_neg hb)

theorem Mode.StartsItem.of_append {m : Mode} (hu : u ≠ []) (h : m.StartsItem k (u ++ v)) :
    m.StartsItem k u := by
  obtain ⟨b, u, rfl⟩ := List.exists_cons_of_ne_nil hu
  cases h with
  | opened h => exact .opened h
  | negated => exact .negated
  | inside h => exact .inside h

namespace Reading

variable {st : Reading}

/-- Past a text that opens no group, or only groups that it closes. -/
def past (st : Reading) (u : Bytes) : Reading := ⟨st.offset + u.length, .behind, st.opened⟩

theorem past_of_next (st : Reading) (m : Mode) :
    (Reading.mk (st.offset + 1) m st.opened).past u = st.past (b :: u) := by
  simp [past, Nat.add_assoc, Nat.add_comm 1]

/-- Past a text in the class at `k`. -/
def pastInClass (st : Reading) (k : Nat) (u : Bytes) : Reading :=
  ⟨st.offset + u.length, .insideClass k, st.opened⟩

theorem nextAll_append (st : Reading) (u v : Bytes) :
    st.nextAll (u ++ v) = (st.nextAll u).nextAll v :=
  List.foldl_append

theorem nextAll_cons (st : Reading) (b : UInt8) (u : Bytes) :
    st.nextAll (b :: u) = (st.next b).nextAll u := rfl

theorem past_past : (st.past u).past v = st.past (u ++ v) := by
  simp [past, Nat.add_assoc]

theorem pastInClass_pastInClass :
    (st.pastInClass k u).pastInClass k v = st.pastInClass k (u ++ v) := by
  simp [pastInClass, Nat.add_assoc]

theorem pastInClass_past : (st.pastInClass k u).past v = st.past (u ++ v) := by
  simp [past, pastInClass, Nat.add_assoc]

theorem next_byte_of_startsItem (hst : st.mode.StartsItem k (b :: u)) (hb : b ≠ Byte.ofChar '\\') :
    st.next b = st.pastInClass k [b] := by
  rw [next_eq _ fun h => absurd h (Mode.not_isOutside_of_class? hst.class?_eq), hst.next_eq hb]
  rfl

/-- A byte that has no meaning for reading outside of classes. -/
def IsPlain (b : UInt8) : Prop := ∀ c ∈ ['\\', '[', '(', '|', ')'], b ≠ Byte.ofChar c

-- As for `IsFirst`, only the listed characters are to be looked at.
instance : DecidablePred IsPlain := fun _ => List.decidableBAll _ _

theorem next_plain (hst : st.mode.isOutside = true) (hb : IsPlain b) : st.next b = st.past [b] := by
  have hmode : Mode.start.next st.offset b = .behind := by
    rw [Mode.next, if_neg (hb '\\' (by decide)), if_neg (hb '[' (by decide)),
      if_neg (not_or_intro (hb '(' (by decide)) (hb '|' (by decide)))]
  rw [next_eq _ fun _ => ⟨hb '(' (by decide), hb ')' (by decide)⟩,
    Mode.next_of_isOutside hst, hmode]
  rfl

theorem nextAll_escape (hst : st.mode.isOutside = true) :
    st.nextAll [Byte.ofChar '\\', b] = st.past [Byte.ofChar '\\', b] := by
  have hback : st.next (Byte.ofChar '\\') = ⟨st.offset + 1, .escape, st.opened⟩ := by
    rw [next_eq _ fun _ => by decide, Mode.next_of_isOutside hst]
    rfl
  rw [nextAll_cons, hback]
  rfl

/-- Within a group that is opened. -/
def enter (st : Reading) : Reading := ⟨st.offset + 1, .start, st.opened ++ [st.offset]⟩

theorem next_open (hst : st.mode.isOutside = true) : st.next (Byte.ofChar '(') = st.enter := by
  rw [next, if_pos ⟨hst, rfl⟩, Mode.next_of_isOutside hst]
  rfl

/-- The parenthesis that closes a group takes back what the one that opened it did. -/
theorem next_close (st : Reading) (u : Bytes) : (st.enter.past u).next (Byte.ofChar ')') =
    st.past (Byte.ofChar '(' :: (u ++ [Byte.ofChar ')'])) := by
  have hnext : (st.enter.past u).next (Byte.ofChar ')') =
      ⟨st.offset + 1 + u.length + 1, .behind, (st.opened ++ [st.offset]).dropLast⟩ := rfl
  rw [hnext, List.dropLast_concat, past, mk.injEq]
  refine ⟨?_, rfl, rfl⟩
  rw [List.length_cons, List.length_append, List.length_singleton]
  omega

theorem next_bar (hst : st.mode.isOutside = true) :
    st.next (Byte.ofChar '|') = ⟨st.offset + 1, .start, st.opened⟩ := by
  rw [next_eq _ fun _ => by decide, Mode.next_of_isOutside hst]
  rfl

theorem next_class (hst : st.mode.isOutside = true) :
    st.next (Byte.ofChar '[') = ⟨st.offset + 1, .openedClass st.offset, st.opened⟩ := by
  rw [next_eq _ fun _ => by decide, Mode.next_of_isOutside hst]
  rfl

theorem next_negated (n k : Nat) (opened : List Nat) :
    next ⟨n, .openedClass k, opened⟩ (Byte.ofChar '^') = ⟨n + 1, .negatedClass k, opened⟩ := rfl

theorem next_bracket :
    (st.pastInClass k u).next (Byte.ofChar ']') = st.past (u ++ [Byte.ofChar ']']) := by
  rw [next_eq _ fun _ => by decide, past, List.length_append]
  rfl

theorem nextAll_escape_of_startsItem (hst : st.mode.StartsItem k (Byte.ofChar '\\' :: u)) :
    st.nextAll [Byte.ofChar '\\', b] = st.pastInClass k [Byte.ofChar '\\', b] := by
  obtain ⟨n, m, l⟩ := st
  cases hst <;> rfl

end Reading

namespace Grammar

variable {st : Reading} {next : Bytes} {c : UInt8} {S : Set UInt8} {r q : Regex} {rs : List Regex}

theorem SingleByte.read (h : SingleByte u c) (hst : st.mode.StartsItem k u) :
    st.nextAll u = st.pastInClass k u := by
  cases h with
  | plain h => exact Reading.next_byte_of_startsItem hst h
  | escaped h => exact Reading.nextAll_escape_of_startsItem hst

/-- Behind the dash of a range, its second bound is read. -/
theorem SingleByte.read_dash (h : SingleByte u c) (hst : st.mode.StartsItem k u) :
    st.nextAll (u ++ [Byte.ofChar '-']) = st.pastInClass k (u ++ [Byte.ofChar '-']) := by
  have hdash : (st.pastInClass k u).mode.StartsItem k [Byte.ofChar '-'] := .inside (by simp)
  rw [Reading.nextAll_append, h.read hst]
  exact (Reading.next_byte_of_startsItem hdash (by decide)).trans Reading.pastInClass_pastInClass

theorem ClassItem.read (h : ClassItem next u S) (hst : st.mode.StartsItem k u) :
    st.nextAll u = st.pastInClass k u := by
  cases h with
  | shorthand h => exact Reading.nextAll_escape_of_startsItem hst
  | single h hnext => exact h.read hst
  | @range u v lo hi hlo hhi hv =>
    rw [List.append_cons, Reading.nextAll_append, hlo.read_dash (hst.of_append hlo.ne_nil),
      hhi.read (.inside hv), Reading.pastInClass_pastInClass]

/-- The items of a class are read up to the bracket that closes it, and not further. -/
theorem ClassItems.read (h : ClassItems u S) (hst : st.mode.StartsItem k u) :
    st.nextAll u = st.past u := by
  induction h generalizing st with
  | last h =>
    rw [Reading.nextAll_append, h.read (hst.of_append h.ne_nil)]
    exact Reading.next_bracket
  | cons h hv hitems ih =>
    rw [Reading.nextAll_append, h.read (hst.of_append h.ne_nil), ih (.inside hv),
      Reading.pastInClass_past]

theorem CharClass.read (h : CharClass u r) (hst : st.mode.isOutside = true) :
    st.nextAll u = st.past u := by
  cases h with
  | plain h hu hr =>
    rw [Reading.nextAll_cons, Reading.next_class hst, h.read (.opened hu)]
    exact Reading.past_of_next st _
  | @negated u _ _ h hr =>
    rw [Reading.nextAll_cons, Reading.next_class hst, Reading.nextAll_cons,
      Reading.next_negated, h.read .negated]
    exact (Reading.past_of_next ⟨st.offset + 1, .openedClass st.offset, st.opened⟩ _).trans
      (Reading.past_of_next st _)

theorem Symbol.read (h : Symbol u r) (hst : st.mode.isOutside = true) :
    st.nextAll u = st.past u := by
  cases h with
  | any => exact Reading.next_plain hst (by decide)
  | @byte b h =>
    have hspecial : ['\\', '[', '(', '|', ')'] ⊆ special := by decide
    exact Reading.next_plain hst fun c hc => h c (hspecial hc)
  | escaped h => exact Reading.nextAll_escape hst
  | shorthand h hr => exact Reading.nextAll_escape hst
  | charClass h => exact h.read hst

/-- Repetition operators are read like the bytes of an item. -/
theorem Repeated.read (h : Repeated r u q) : (st.past v).nextAll u = st.past (v ++ u) := by
  have hnext {v : Bytes} {c : UInt8} (hc : Reading.IsPlain c) :
      (st.past v).next c = st.past (v ++ [c]) :=
    (Reading.next_plain rfl hc).trans Reading.past_past
  induction h generalizing v with
  | nil =>
    rw [List.append_nil]
    rfl
  | star h ih =>
    rw [Reading.nextAll_cons, hnext (by decide), ih, List.append_assoc, List.singleton_append]
  | plus h ih =>
    rw [Reading.nextAll_cons, hnext (by decide), ih, List.append_assoc, List.singleton_append]
  | maybe h ih =>
    rw [Reading.nextAll_cons, hnext (by decide), ih, List.append_assoc, List.singleton_append]

mutual

/-- What is derived is read to behind an item, and the same groups are open as before. -/
theorem Alternation.read {u : Bytes} {r : Regex} {st : Reading} (hst : st.mode.isOutside = true) :
    Alternation u r → st.nextAll u = st.past u
  | .single h => h.read hst
  | .alt hleft hright => by
    rw [Reading.nextAll_append, hleft.read hst, Reading.nextAll_cons,
      Reading.next_bar rfl, hright.read rfl, Reading.past_of_next, Reading.past_past]

theorem Sequence.read {u : Bytes} {r : Regex} {st : Reading} (hst : st.mode.isOutside = true) :
    Sequence u r → st.nextAll u = st.past u
  | .single h => h.read hst
  | .cat h => h.read hst

theorem Items.read {u : Bytes} {rs : List Regex} {st : Reading} (hst : st.mode.isOutside = true) :
    Items u rs → st.nextAll u = st.past u
  | .last h => h.read hst
  | .cons h hitems => by
    rw [Reading.nextAll_append, h.read hst, hitems.read rfl, Reading.past_past]

theorem Item.read {u : Bytes} {r : Regex} {st : Reading} (hst : st.mode.isOutside = true) :
    Item u r → st.nextAll u = st.past u
  | .repeated h hq => by
    rw [Reading.nextAll_append, h.read hst, hq.read]

theorem Atom.read {u : Bytes} {r : Regex} {st : Reading} (hst : st.mode.isOutside = true) :
    Atom u r → st.nextAll u = st.past u
  | .group h => by
    rw [Reading.nextAll_cons, Reading.next_open hst, Reading.nextAll_append, h.read rfl]
    exact Reading.next_close st _
  | .symbol h => h.read hst

end

end Grammar

end Pattern

end Munch
