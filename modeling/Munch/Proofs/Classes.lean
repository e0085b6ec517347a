import Mathlib.Data.Set.Insert
import Munch.Pattern.Parser

set_option autoImplicit false

/-! # The grammar of classes

Escapes and classes are the lexical part of the grammar of patterns. Here they are given by
derivations, which say which texts they are and which set of bytes each text stands for, without
saying how they are found, and the functions of the parser are shown to find exactly these:
`escape_yields`, `classItem_yields`, `classItems_yields`, `charClass_yields`.

The parser keeps a set as a list of ranges. Two lists for one set are equal
(`ByteSet.toSet_injective`), so it is enough to know of a set of the parser which bytes are in
it. -/

namespace Munch

/-! ## Sets of bytes -/

namespace ByteRange

variable {r s : ByteRange} {l m : List ByteRange} {b : UInt8}

theorem lt_of_covers_tail (h : (r :: l).Pairwise Before) (hb : Covers l b) :
    r.hi.toNat + 1 < b.toNat := by
  obtain ⟨t, ht, hbt⟩ := hb
  have hbefore := List.rel_of_pairwise_cons h ht
  rw [mem_iff_toNat] at hbt
  simp only [Before] at hbefore
  omega

/-- The first range of a list does not start behind that of a list with fewer bytes, and if both
    start at one byte, it does not end before it. -/
theorem first_of_covers_subset (hm : (s :: m).Pairwise Before)
    (h : ∀ b, Covers (r :: l) b → Covers (s :: m) b) :
    s.lo.toNat ≤ r.lo.toNat ∧ (s.lo = r.lo → r.hi.toNat ≤ s.hi.toNat) := by
  have hr := r.toNat_lo_le_hi
  have hs := s.toNat_lo_le_hi
  constructor
  · have hlo : Covers (r :: l) r.lo := covers_cons.mpr (.inl (mem_iff_toNat.mpr (by omega)))
    rcases covers_cons.mp (h _ hlo) with hin | htail
    · rw [mem_iff_toNat] at hin
      omega
    · have := lt_of_covers_tail hm htail
      omega
  · intro heq
    by_contra hlt
    -- The byte behind the end of `s` would be in `r`, but the second list leaves it out.
    have hmax := r.hi.toNat_lt
    have hnext : (UInt8.ofNat (s.hi.toNat + 1)).toNat = s.hi.toNat + 1 := by
      rw [UInt8.toNat_ofNat']
      omega
    have hin : Covers (r :: l) (UInt8.ofNat (s.hi.toNat + 1)) := by
      rw [← heq] at hr
      refine covers_cons.mpr (.inl (mem_iff_toNat.mpr ?_))
      rw [hnext, ← heq]
      omega
    rcases covers_cons.mp (h _ hin) with hin | htail
    · rw [mem_iff_toNat] at hin
      omega
    · have := lt_of_covers_tail hm htail
      omega

/-- Two ascending lists of separated ranges with the same bytes are the same list. -/
theorem eq_of_covers_iff (hl : l.Pairwise Before) (hm : m.Pairwise Before)
    (h : ∀ b, Covers l b ↔ Covers m b) : l = m := by
  induction l generalizing m with
  | nil =>
    cases m with
    | nil => rfl
    | cons s m =>
      have hlo : Covers (s :: m) s.lo := covers_cons.mpr (.inl ⟨UInt8.le_refl _, s.lo_le_hi⟩)
      exact absurd ((h _).mpr hlo) (covers_nil _)
  | cons r l ih =>
    cases m with
    | nil =>
      have hlo : Covers (r :: l) r.lo := covers_cons.mpr (.inl ⟨UInt8.le_refl _, r.lo_le_hi⟩)
      exact absurd ((h _).mp hlo) (covers_nil _)
    | cons s m =>
      -- Separated ranges do not touch, so the first one ends at the first gap.
      obtain ⟨hsr, hhi⟩ := first_of_covers_subset hm fun b => (h b).mp
      obtain ⟨hrs, hhi'⟩ := first_of_covers_subset hl fun b => (h b).mpr
      have hlo : r.lo = s.lo := UInt8.toNat_inj.mp (Nat.le_antisymm hrs hsr)
      have hhi : r.hi = s.hi := UInt8.toNat_inj.mp (Nat.le_antisymm (hhi hlo.symm) (hhi' hlo))
      obtain rfl : r = s := by
        cases r
        cases s
        simp only [mk.injEq]
        exact ⟨hlo, hhi⟩
      -- No tail has a byte of the first range, so without it the bytes are still the same.
      have htail : ∀ b, Covers l b ↔ Covers m b := fun b => by
        have hb := h b
        rw [covers_cons, covers_cons] at hb
        have hout : b ∈ r → ¬ Covers l b ∧ ¬ Covers m b := fun hin => by
          rw [mem_iff_toNat] at hin
          refine ⟨fun hc => ?_, fun hc => ?_⟩
          · have := lt_of_covers_tail hl hc
            omega
          · have := lt_of_covers_tail hm hc
            omega
        by_cases hin : b ∈ r
        · exact iff_of_false (hout hin).1 (hout hin).2
        · rwa [or_iff_right hin, or_iff_right hin] at hb
      rw [ih hl.of_cons hm.of_cons htail]

theorem mem_between {a b c : UInt8} : c ∈ between a b ↔ a ≤ c ∧ c ≤ b ∨ b ≤ c ∧ c ≤ a := by
  unfold between
  split
  · next hab =>
    simp only [mem_def, UInt8.le_iff_toNat_le] at hab ⊢
    omega
  · next hab =>
    simp only [mem_def, UInt8.le_iff_toNat_le] at hab ⊢
    omega

end ByteRange

namespace ByteSet

variable {s t : ByteSet}

/-- The bytes of a set of ranges. -/
def toSet (s : ByteSet) : Set UInt8 := {b | b ∈ s}

/-- A set of bytes can be written in one way only. -/
theorem toSet_injective : Function.Injective toSet := by
  intro s t h
  have hranges : s.ranges = t.ranges :=
    ByteRange.eq_of_covers_iff s.canonical t.canonical fun b => Set.ext_iff.mp h b
  cases s
  cases t
  simp only [mk.injEq]
  exact hranges

@[simp] theorem toSet_empty : empty.toSet = ∅ := Set.eq_empty_of_forall_notMem not_mem_empty

@[simp] theorem toSet_union : (s.union t).toSet = s.toSet ∪ t.toSet := by
  ext b
  exact mem_union.trans or_comm

@[simp] theorem toSet_insert {a b : UInt8} :
    (s.insert a b).toSet = s.toSet ∪ {c | a ≤ c ∧ c ≤ b ∨ b ≤ c ∧ c ≤ a} := by
  ext c
  exact mem_insertRange.trans ((or_congr_left ByteRange.mem_between).trans or_comm)

theorem toSet_insert_self {b : UInt8} : (s.insert b b).toSet = s.toSet ∪ {b} := by
  rw [toSet_insert]
  ext c
  refine or_congr_right ?_
  rw [Set.mem_ofPred_eq, Set.mem_singleton_iff, UInt8.le_iff_toNat_le,
    UInt8.le_iff_toNat_le, ← UInt8.toNat_inj]
  omega

theorem mem_ofPairs {ps : List (UInt8 × UInt8)} {c : UInt8} :
    c ∈ ofPairs ps ↔ ∃ p ∈ ps, p.1 ≤ c ∧ c ≤ p.2 ∨ p.2 ≤ c ∧ c ≤ p.1 := by
  refine mem_insertRanges.trans ((or_iff_left (not_mem_empty c)).trans ?_)
  simp only [ByteRange.Covers, List.mem_map, exists_exists_and_eq_and, ByteRange.mem_between]

@[simp] theorem toSet_complement : s.complement.toSet = s.toSetᶜ := by
  ext b
  exact mem_complement

end ByteSet

namespace Pattern

/-! ## What attempts yield -/

namespace Attempt

variable {α β : Type} {s t rest : Bytes} {value : α}

/-- An attempt succeeds with a value, and leaves the rest of the text. -/
def Yields (a : Attempt α s) (value : α) (rest : Bytes) : Prop :=
  ∃ h, a.result = .ok ⟨value, rest, h⟩

theorem yields_of_result {a : Attempt α s} {x : Success α s} (h : a.result = .ok x) :
    a.Yields x.value x.rest := ⟨x.shorter, h⟩

@[simp] theorem yields_done {x : Success α s} :
    (done x).Yields value rest ↔ x.value = value ∧ x.rest = rest := by
  constructor
  · rintro ⟨_, h⟩
    obtain rfl := Except.ok.inj h
    exact ⟨rfl, rfl⟩
  · rintro ⟨rfl, rfl⟩
    exact ⟨x.shorter, rfl⟩

@[simp] theorem not_yields_fail {f : Fault} : ¬ (fail f : Attempt α s).Yields value rest := by
  rintro ⟨_, h⟩
  cases h

@[simp] theorem yields_entering {p : Production} {offset : Nat} {a : Attempt α s} :
    (entering p offset a).Yields value rest ↔ a.Yields value rest := Iff.rfl

@[simp] theorem yields_weaken {a : Attempt α t} {h : t.length ≤ s.length} :
    (a.weaken h).Yields value rest ↔ a.Yields value rest := by
  unfold Yields weaken
  cases hr : a.result with
  | error e => simp [Except.map]
  | ok x =>
    simp only [Except.map, Except.ok.injEq]
    constructor
    · rintro ⟨_, hx⟩
      cases hx
      exact ⟨x.shorter, rfl⟩
    · rintro ⟨_, rfl⟩
      exact ⟨_, rfl⟩

@[simp] theorem yields_orElse {a : Attempt α s} {f : Fault} :
    (a.orElse f).Yields value rest ↔ a.Yields value rest := by
  unfold Yields orElse
  cases a.result <;> simp [Except.mapError]

@[simp] theorem yields_map {a : Attempt α s} {f : α → β} {value : β} :
    (a.map f).Yields value rest ↔ ∃ x, a.Yields x rest ∧ f x = value := by
  unfold Yields map
  cases hr : a.result with
  | error e => simp [Except.map]
  | ok x =>
    simp only [Except.map, Except.ok.injEq]
    constructor
    · rintro ⟨_, hx⟩
      cases hx
      exact ⟨x.value, ⟨x.shorter, rfl⟩, rfl⟩
    · rintro ⟨_, ⟨_, rfl⟩, rfl⟩
      exact ⟨_, rfl⟩

/-- What a continuation yields: a success comes first, and the continuation yields the rest. -/
theorem yields_andThen {a : Attempt α s} {f : Success α s → Attempt β s} {value : β} :
    (a.andThen f).Yields value rest ↔
      ∃ (x : α) (r : Bytes) (h : r.length < s.length), a.Yields x r ∧
      (f ⟨x, r, h⟩).Yields value rest := by
  unfold Yields andThen
  cases hr : a.result with
  | error e => simp
  | ok x =>
    constructor
    · rintro ⟨h, hf⟩
      exact ⟨x.value, x.rest, x.shorter, ⟨x.shorter, rfl⟩, h, hf⟩
    · rintro ⟨_, _, _, ⟨_, hx⟩, h, hf⟩
      obtain rfl := Except.ok.inj hx
      exact ⟨h, hf⟩

theorem Yields.andThen {a : Attempt α s} {f : Success α s → Attempt β s} {x : α}
    {r : Bytes} {value : β} (ha : a.Yields x r) (hf : ∀ h, (f ⟨x, r, h⟩).Yields value rest) :
    (a.andThen f).Yields value rest := by
  obtain ⟨h, hx⟩ := id ha
  exact yields_andThen.mpr ⟨x, r, h, ha, hf h⟩

end Attempt

/-! ## Derivations -/

namespace Grammar

/-- The digits. -/
def IsDigit (b : UInt8) : Prop := Byte.ofChar '0' ≤ b ∧ b ≤ Byte.ofChar '9'

/-- The blank bytes: tab through carriage return, and the space. -/
def IsBlank (b : UInt8) : Prop := 9 ≤ b ∧ b ≤ 13 ∨ b = Byte.ofChar ' '

/-- The bytes of words: digits, letters and the underscore. -/
def IsWordByte (b : UInt8) : Prop :=
  IsDigit b ∨ (Byte.ofChar 'A' ≤ b ∧ b ≤ Byte.ofChar 'Z') ∨ b = Byte.ofChar '_' ∨
    (Byte.ofChar 'a' ≤ b ∧ b ≤ Byte.ofChar 'z')

instance : DecidablePred IsDigit := fun _ => inferInstanceAs (Decidable (_ ∧ _))
instance : DecidablePred IsBlank := fun _ => inferInstanceAs (Decidable (_ ∨ _))
instance : DecidablePred IsWordByte := fun _ => inferInstanceAs (Decidable (_ ∨ _))

/-- A byte behind a backslash that stands for a set of bytes. -/
inductive Shorthand : UInt8 → Set UInt8 → Prop where
  | digit : Shorthand (Byte.ofChar 'd') {b | IsDigit b}
  | notDigit : Shorthand (Byte.ofChar 'D') {b | ¬ IsDigit b}
  | blank : Shorthand (Byte.ofChar 's') {b | IsBlank b}
  | notBlank : Shorthand (Byte.ofChar 'S') {b | ¬ IsBlank b}
  | word : Shorthand (Byte.ofChar 'w') {b | IsWordByte b}
  | notWord : Shorthand (Byte.ofChar 'W') {b | ¬ IsWordByte b}

/-- A byte behind a backslash that stands for one byte: a control byte, or the byte itself. -/
inductive Escaped : UInt8 → UInt8 → Prop where
  | lineFeed : Escaped (Byte.ofChar 'n') 10
  | carriageReturn : Escaped (Byte.ofChar 'r') 13
  | tab : Escaped (Byte.ofChar 't') 9
  | itself {b : UInt8} (h : ∀ c ∈ ['n', 'r', 't', 'd', 'D', 's', 'S', 'w', 'W'],
      b ≠ Byte.ofChar c) : Escaped b b

/-- A single byte of a class: any byte but the backslash, or an escape that stands for one byte. -/
inductive SingleByte : Bytes → UInt8 → Prop where
  | plain {b : UInt8} (h : b ≠ Byte.ofChar '\\') : SingleByte [b] b
  | escaped {b c : UInt8} (h : Escaped b c) : SingleByte [Byte.ofChar '\\', b] c

/-- What follows a single byte makes it the first bound of a range: a dash, and a byte other than
    the closing bracket. -/
def RangeFollows (next : Bytes) : Prop :=
  ∃ b rest, next = Byte.ofChar '-' :: b :: rest ∧ b ≠ Byte.ofChar ']'

/-- An item of a class, and the bytes that it stands for, where `next` follows it. The bounds of a
    range may be given in either order. -/
inductive ClassItem (next : Bytes) : Bytes → Set UInt8 → Prop where
  | shorthand {b : UInt8} {S : Set UInt8} (h : Shorthand b S) :
      ClassItem next [Byte.ofChar '\\', b] S
  | single {u : Bytes} {b : UInt8} (h : SingleByte u b) (hnext : ¬ RangeFollows next) :
      ClassItem next u {b}
  | range {u v : Bytes} {lo hi : UInt8} (hlo : SingleByte u lo) (hhi : SingleByte v hi)
      (hv : v.head? ≠ some (Byte.ofChar ']')) :
      ClassItem next (u ++ Byte.ofChar '-' :: v) {b | lo ≤ b ∧ b ≤ hi ∨ hi ≤ b ∧ b ≤ lo}

/-- The items of a class with the closing bracket, which is the first one where an item other than
    the first would begin. -/
inductive ClassItems : Bytes → Set UInt8 → Prop where
  | last {u : Bytes} {S : Set UInt8} (h : ClassItem [Byte.ofChar ']'] u S) :
      ClassItems (u ++ [Byte.ofChar ']']) S
  | cons {u v : Bytes} {S T : Set UInt8} (h : ClassItem v u S)
      (hv : v.head? ≠ some (Byte.ofChar ']')) (hitems : ClassItems v T) :
      ClassItems (u ++ v) (S ∪ T)

/-- The smallest expression for the bytes of a set; there is none for the empty set. -/
def AnyOf (S : Set UInt8) (r : Regex) : Prop :=
  ∃ set : ByteSet, set.toSet = S ∧ Regex.ofSet? set = some r

/-- A class. A caret behind the opening bracket is always the mark of a negated class. -/
inductive CharClass : Bytes → Regex → Prop where
  | plain {u : Bytes} {S : Set UInt8} {r : Regex} (h : ClassItems u S)
      (hu : u.head? ≠ some (Byte.ofChar '^')) (hr : AnyOf S r) : CharClass (Byte.ofChar '[' :: u) r
  | negated {u : Bytes} {S : Set UInt8} {r : Regex} (h : ClassItems u S) (hr : AnyOf Sᶜ r) :
      CharClass (Byte.ofChar '[' :: Byte.ofChar '^' :: u) r

end Grammar

/-! ## Escapes -/

open Grammar

theorem toSet_digits : digits.toSet = {b | IsDigit b} := by
  ext b
  refine ByteSet.mem_ofPairs.trans ?_
  simp only [List.mem_singleton, exists_eq_left, Set.mem_ofPred_eq, IsDigit, UInt8.le_iff_toNat_le]
  show 48 ≤ b.toNat ∧ b.toNat ≤ 57 ∨ 57 ≤ b.toNat ∧ b.toNat ≤ 48 ↔ 48 ≤ b.toNat ∧ b.toNat ≤ 57
  omega

theorem toSet_blanks : blanks.toSet = {b | IsBlank b} := by
  ext b
  refine ByteSet.mem_ofPairs.trans ?_
  simp only [List.mem_cons, List.not_mem_nil, or_false, exists_eq_or_imp,
    exists_eq_left, Set.mem_ofPred_eq, IsBlank, UInt8.le_iff_toNat_le, ← UInt8.toNat_inj]
  show (9 ≤ b.toNat ∧ b.toNat ≤ 13 ∨ 13 ≤ b.toNat ∧ b.toNat ≤ 9) ∨
    (32 ≤ b.toNat ∧ b.toNat ≤ 32 ∨ 32 ≤ b.toNat ∧ b.toNat ≤ 32) ↔
      9 ≤ b.toNat ∧ b.toNat ≤ 13 ∨ b.toNat = 32
  omega

theorem toSet_wordBytes : wordBytes.toSet = {b | IsWordByte b} := by
  ext b
  refine ByteSet.mem_ofPairs.trans ?_
  simp only [List.mem_cons, List.not_mem_nil, or_false, exists_eq_or_imp,
    exists_eq_left, Set.mem_ofPred_eq,
    IsWordByte, IsDigit, UInt8.le_iff_toNat_le, ← UInt8.toNat_inj]
  show (48 ≤ b.toNat ∧ b.toNat ≤ 57 ∨ 57 ≤ b.toNat ∧ b.toNat ≤ 48) ∨
    (65 ≤ b.toNat ∧ b.toNat ≤ 90 ∨ 90 ≤ b.toNat ∧ b.toNat ≤ 65) ∨
    (95 ≤ b.toNat ∧ b.toNat ≤ 95 ∨ 95 ≤ b.toNat ∧ b.toNat ≤ 95) ∨
    (97 ≤ b.toNat ∧ b.toNat ≤ 122 ∨ 122 ≤ b.toNat ∧ b.toNat ≤ 97) ↔
      (48 ≤ b.toNat ∧ b.toNat ≤ 57) ∨ (65 ≤ b.toNat ∧ b.toNat ≤ 90) ∨ b.toNat = 95 ∨
        (97 ≤ b.toNat ∧ b.toNat ≤ 122)
  omega

theorem escapeOf_eq_byte_iff {b c : UInt8} : escapeOf b = .byte c ↔ Escaped b c := by
  constructor
  · intro h
    unfold escapeOf at h
    split_ifs at h with hn hr ht hd hD hs hS hw hW
    · obtain rfl := Escape.byte.inj h
      obtain rfl := eq_of_beq hn
      exact .lineFeed
    · obtain rfl := Escape.byte.inj h
      obtain rfl := eq_of_beq hr
      exact .carriageReturn
    · obtain rfl := Escape.byte.inj h
      obtain rfl := eq_of_beq ht
      exact .tab
    · obtain rfl := Escape.byte.inj h
      refine .itself ?_
      simp only [beq_iff_eq] at hn hr ht hd hD hs hS hw hW
      simp only [List.forall_mem_cons, List.not_mem_nil, false_imp_iff, implies_true, and_true]
      exact ⟨hn, hr, ht, hd, hD, hs, hS, hw, hW⟩
  · rintro (_ | _ | _ | h)
    · rfl
    · rfl
    · rfl
    · simp only [List.forall_mem_cons, List.not_mem_nil, false_imp_iff, implies_true, and_true] at h
      simp only [escapeOf, beq_iff_eq, h, if_false]

theorem shorthand_of_escapeOf {b : UInt8} {set : ByteSet} (h : escapeOf b = .set set) :
    Shorthand b set.toSet := by
  unfold escapeOf at h
  split_ifs at h with hn hr ht hd hD hs hS hw hW
  · obtain rfl := Escape.set.inj h
    obtain rfl := eq_of_beq hd
    rw [toSet_digits]
    exact .digit
  · obtain rfl := Escape.set.inj h
    obtain rfl := eq_of_beq hD
    rw [ByteSet.toSet_complement, toSet_digits]
    exact .notDigit
  · obtain rfl := Escape.set.inj h
    obtain rfl := eq_of_beq hs
    rw [toSet_blanks]
    exact .blank
  · obtain rfl := Escape.set.inj h
    obtain rfl := eq_of_beq hS
    rw [ByteSet.toSet_complement, toSet_blanks]
    exact .notBlank
  · obtain rfl := Escape.set.inj h
    obtain rfl := eq_of_beq hw
    rw [toSet_wordBytes]
    exact .word
  · obtain rfl := Escape.set.inj h
    obtain rfl := eq_of_beq hW
    rw [ByteSet.toSet_complement, toSet_wordBytes]
    exact .notWord

theorem exists_escapeOf_of_shorthand {b : UInt8} {S : Set UInt8} (h : Shorthand b S) :
    ∃ set, escapeOf b = .set set ∧ set.toSet = S := by
  cases h with
  | digit => exact ⟨_, rfl, toSet_digits⟩
  | notDigit => exact ⟨_, rfl, ByteSet.toSet_complement.trans (congrArg _ toSet_digits)⟩
  | blank => exact ⟨_, rfl, toSet_blanks⟩
  | notBlank => exact ⟨_, rfl, ByteSet.toSet_complement.trans (congrArg _ toSet_blanks)⟩
  | word => exact ⟨_, rfl, toSet_wordBytes⟩
  | notWord => exact ⟨_, rfl, ByteSet.toSet_complement.trans (congrArg _ toSet_wordBytes)⟩

variable {n start : Nat} {s t rest : Bytes} {b c : UInt8} {set set' : ByteSet}

theorem escape_yields {e : Escape} :
    (escape n s).Yields e rest ↔ ∃ b, s = b :: rest ∧ escapeOf b = e := by
  unfold escape
  cases s with
  | nil => simp
  | cons b s =>
    simp only [Attempt.yields_entering, Attempt.yields_done, List.cons.injEq]
    constructor
    · rintro ⟨rfl, rfl⟩
      exact ⟨b, ⟨rfl, rfl⟩, rfl⟩
    · rintro ⟨_, ⟨rfl, rfl⟩, rfl⟩
      exact ⟨rfl, rfl⟩

/-- A byte or an escape inside a class is found by its first byte. -/
theorem classByte_yields {e : Escape} : (classByte n s).Yields e rest ↔
    (∃ b, s = b :: rest ∧ b ≠ Byte.ofChar '\\' ∧ .byte b = e) ∨
      ∃ b, s = Byte.ofChar '\\' :: b :: rest ∧ escapeOf b = e := by
  unfold classByte
  cases s with
  | nil => simp
  | cons b s =>
    simp only [beq_iff_eq, List.cons.injEq]
    by_cases hb : b = Byte.ofChar '\\'
    · rw [if_pos hb]
      simp only [Attempt.yields_weaken, escape_yields]
      constructor
      · rintro ⟨c, rfl, rfl⟩
        exact .inr ⟨c, ⟨hb, rfl⟩, rfl⟩
      · rintro (⟨_, ⟨rfl, -⟩, hne, -⟩ | ⟨c, ⟨-, rfl⟩, rfl⟩)
        · exact absurd hb hne
        · exact ⟨c, rfl, rfl⟩
    · rw [if_neg hb]
      simp only [Attempt.yields_done]
      constructor
      · rintro ⟨rfl, rfl⟩
        exact .inl ⟨b, ⟨rfl, rfl⟩, hb, rfl⟩
      · rintro (⟨_, ⟨rfl, rfl⟩, -, rfl⟩ | ⟨c, ⟨heq, -⟩, -⟩)
        · exact ⟨rfl, rfl⟩
        · exact absurd heq hb

theorem classByte_yields_byte :
    (classByte n s).Yields (.byte c) rest ↔ ∃ u, s = u ++ rest ∧ SingleByte u c := by
  rw [classByte_yields]
  constructor
  · rintro (⟨b, rfl, hb, heq⟩ | ⟨b, rfl, he⟩)
    · obtain rfl := Escape.byte.inj heq
      exact ⟨[b], rfl, .plain hb⟩
    · exact ⟨[Byte.ofChar '\\', b], rfl, .escaped (escapeOf_eq_byte_iff.mp he)⟩
  · rintro ⟨_, rfl, hb | he⟩
    · exact .inl ⟨c, rfl, hb, rfl⟩
    · exact .inr ⟨_, rfl, escapeOf_eq_byte_iff.mpr he⟩

theorem classByte_yields_set : (classByte n s).Yields (.set set) rest ↔
    ∃ b, s = Byte.ofChar '\\' :: b :: rest ∧ escapeOf b = .set set := by
  rw [classByte_yields, or_iff_right]
  rintro ⟨b, -, -, heq⟩
  cases heq

/-! ## Class items -/

theorem afterDash?_eq_some_iff :
    afterDash? s = some t ↔ RangeFollows s ∧ s = Byte.ofChar '-' :: t := by
  unfold afterDash? RangeFollows
  split
  · next d b r =>
    simp only [Bool.and_eq_true, beq_iff_eq, bne_iff_ne,
      Option.ite_none_right_eq_some, Option.some.injEq, List.cons.injEq]
    constructor
    · rintro ⟨⟨rfl, hb⟩, rfl⟩
      exact ⟨⟨b, r, ⟨rfl, rfl, rfl⟩, hb⟩, rfl, rfl⟩
    · rintro ⟨⟨_, _, ⟨rfl, rfl, rfl⟩, hb⟩, -, rfl⟩
      exact ⟨⟨rfl, hb⟩, rfl⟩
  · next hshort =>
    refine iff_of_false nofun ?_
    rintro ⟨⟨b, r, rfl, -⟩, -⟩
    exact hshort _ _ _ rfl

theorem afterDash?_eq_none_iff : afterDash? s = none ↔ ¬ RangeFollows s := by
  rw [Option.eq_none_iff_forall_ne_some]
  constructor
  · rintro h hrange
    obtain ⟨b, r, rfl, -⟩ := id hrange
    exact h _ (afterDash?_eq_some_iff.mpr ⟨hrange, rfl⟩)
  · exact fun h t ht => h (afterDash?_eq_some_iff.mp ht).1

theorem Grammar.SingleByte.ne_nil {u : Bytes} (h : SingleByte u b) : u ≠ [] := by
  cases h <;> exact List.cons_ne_nil _ _

/-- The byte behind the dash of a range is the first byte of its second bound. -/
theorem rangeFollows_dash {u : Bytes} (hu : u ≠ []) :
    RangeFollows (Byte.ofChar '-' :: (u ++ rest)) ↔ u.head? ≠ some (Byte.ofChar ']') := by
  obtain ⟨b, u, rfl⟩ := List.exists_cons_of_ne_nil hu
  simp [RangeFollows]

theorem classItem_yields : (classItem n set s).Yields set' rest ↔
    ∃ u S, s = u ++ rest ∧ ClassItem rest u S ∧ set'.toSet = set.toSet ∪ S := by
  unfold classItem
  rw [Attempt.yields_entering]
  constructor
  · intro h
    obtain ⟨e, r, hlt, hfirst, h⟩ := Attempt.yields_andThen.mp h
    cases e with
    | set more =>
      obtain ⟨b, rfl, hb⟩ := classByte_yields_set.mp hfirst
      obtain ⟨rfl, rfl⟩ := Attempt.yields_done.mp h
      exact ⟨_, _, rfl, .shorthand (shorthand_of_escapeOf hb), ByteSet.toSet_union⟩
    | byte lo =>
      obtain ⟨u, rfl, hlo⟩ := classByte_yields_byte.mp hfirst
      simp only at h
      -- The byte starts a range if a dash comes behind it, and no bracket behind the dash.
      split at h
      · next hnone =>
        obtain ⟨rfl, rfl⟩ := Attempt.yields_done.mp h
        refine ⟨_, _, rfl, .single hlo (afterDash?_eq_none_iff.mp hnone), ?_⟩
        exact ByteSet.toSet_insert_self
      · next t hsome =>
        obtain ⟨hrange, rfl⟩ := afterDash?_eq_some_iff.mp hsome
        obtain ⟨e, r', _, hsecond, h⟩ := Attempt.yields_andThen.mp h
        rw [Attempt.yields_weaken] at hsecond
        cases e with
        | set more => exact absurd h Attempt.not_yields_fail
        | byte hi =>
          obtain ⟨v, rfl, hhi⟩ := classByte_yields_byte.mp hsecond
          obtain ⟨rfl, rfl⟩ := Attempt.yields_done.mp h
          refine ⟨u ++ Byte.ofChar '-' :: v, _, by simp, .range hlo hhi ?_, ByteSet.toSet_insert⟩
          exact (rangeFollows_dash hhi.ne_nil).mp hrange
  · rintro ⟨u, S, rfl, hitem, hset⟩
    cases hitem with
    | shorthand h =>
      obtain ⟨more, he, rfl⟩ := exists_escapeOf_of_shorthand h
      refine .andThen (classByte_yields_set.mpr ⟨_, rfl, he⟩) fun _ =>
        Attempt.yields_done.mpr ⟨?_, rfl⟩
      exact ByteSet.toSet_injective (ByteSet.toSet_union.trans hset.symm)
    | single h hnext =>
      refine .andThen (classByte_yields_byte.mpr ⟨u, rfl, h⟩) fun _ => ?_
      simp only
      split
      · refine Attempt.yields_done.mpr ⟨?_, rfl⟩
        exact ByteSet.toSet_injective (ByteSet.toSet_insert_self.trans hset.symm)
      · next t hsome => exact absurd (afterDash?_eq_some_iff.mp hsome).1 hnext
    | @range u v lo hi hlo hhi hv =>
      refine .andThen (classByte_yields_byte.mpr ⟨u, List.append_assoc _ _ _, hlo⟩) fun _ => ?_
      simp only
      split
      · next hnone =>
          exact absurd ((rangeFollows_dash hhi.ne_nil).mpr hv) (afterDash?_eq_none_iff.mp hnone)
      · next t hsome =>
        obtain ⟨-, heq⟩ := afterDash?_eq_some_iff.mp hsome
        obtain rfl := (List.cons.inj heq).2
        refine .andThen (Attempt.yields_weaken.mpr (classByte_yields_byte.mpr ⟨v, rfl, hhi⟩))
          fun _ => ?_
        refine Attempt.yields_done.mpr ⟨?_, rfl⟩
        exact ByteSet.toSet_injective (ByteSet.toSet_insert.trans hset.symm)

/-! ## Classes -/

namespace Grammar

variable {next next' u v : Bytes} {S T : Set UInt8} {r : Regex}

theorem rangeFollows_append (hv : 2 ≤ v.length) : RangeFollows (v ++ rest) ↔ RangeFollows v := by
  match v, hv with
  | a :: b :: v, _ => simp [RangeFollows]

theorem ClassItem.ne_nil (h : ClassItem next u S) : u ≠ [] := by
  cases h with
  | shorthand h => exact List.cons_ne_nil _ _
  | single h => exact h.ne_nil
  | range hlo hhi hv => simp

/-- Of what follows an item it matters only whether it makes the item a range. -/
theorem ClassItem.of_rangeFollows (h : ClassItem next u S)
    (hnext : RangeFollows next' → RangeFollows next) : ClassItem next' u S := by
  cases h with
  | shorthand h => exact .shorthand h
  | single h hsingle => exact .single h (mt hnext hsingle)
  | range hlo hhi hv => exact .range hlo hhi hv

/-- The bytes of an item can be written as ranges. -/
theorem ClassItem.exists_toSet_eq (h : ClassItem next u S) : ∃ set : ByteSet, set.toSet = S := by
  cases h with
  | shorthand h =>
    obtain ⟨set, -, hset⟩ := exists_escapeOf_of_shorthand h
    exact ⟨set, hset⟩
  | @single b h hnext =>
    exact ⟨_, ByteSet.toSet_insert_self.trans (by rw [ByteSet.toSet_empty, Set.empty_union])⟩
  | range hlo hhi hv =>
    exact ⟨_, ByteSet.toSet_insert.trans (by rw [ByteSet.toSet_empty, Set.empty_union])⟩

theorem ClassItems.two_le_length (h : ClassItems u S) : 2 ≤ u.length := by
  induction h with
  | last h =>
    have := List.length_pos_iff.mpr h.ne_nil
    rw [List.length_append, List.length_singleton]
    omega
  | cons h hv hitems ih =>
    rw [List.length_append]
    omega

end Grammar

theorem not_rangeFollows_bracket : ¬ RangeFollows (Byte.ofChar ']' :: rest) := by
  rintro ⟨b, r, heq, -⟩
  exact absurd (List.cons.inj heq).1 (by decide)

/-- The items of a class are found one after the other, up to the bracket that ends the class. -/
theorem classItems_yields : (classItems n start set s).Yields set' rest ↔
    ∃ u S, s = u ++ rest ∧ ClassItems u S ∧ set'.toSet = set.toSet ∪ S := by
  induction hn : s.length using Nat.strong_induction_on generalizing s set with
  | _ m ih =>
    subst hn
    rw [classItems]
    constructor
    · intro hyields
      obtain ⟨x, r, hlt, hitem, h⟩ := Attempt.yields_andThen.mp hyields
      obtain ⟨u, S, rfl, hu, hx⟩ := classItem_yields.mp (Attempt.yields_orElse.mp hitem)
      simp only at h
      split at h
      · exact absurd h Attempt.not_yields_fail
      · next b r' =>
        split at h
        · next hb =>
          obtain rfl := eq_of_beq hb
          obtain ⟨rfl, rfl⟩ := Attempt.yields_done.mp h
          refine ⟨u ++ [Byte.ofChar ']'], S, by simp, .last (hu.of_rangeFollows ?_), hx⟩
          exact fun h => absurd h not_rangeFollows_bracket
        · next hb =>
          obtain ⟨v, T, hv, hT, hset⟩ := (ih _ hlt rfl).mp (Attempt.yields_weaken.mp h)
          -- More items and the bracket have two bytes at least, and two bytes decide whether
          -- the item is a range.
          have hlen := hT.two_le_length
          rw [hv] at hu ⊢
          refine ⟨u ++ v, S ∪ T,
            by simp, .cons (hu.of_rangeFollows (rangeFollows_append hlen).mpr) ?_ hT, ?_⟩
          · obtain ⟨c, v, rfl⟩ := List.exists_cons_of_length_pos (Nat.lt_of_succ_lt hlen)
            obtain rfl := (List.cons.inj hv).1
            simpa using hb
          · rw [hset, hx, Set.union_assoc]
    · rintro ⟨_, _, rfl, hitems, hset⟩
      cases hitems with
      | @last u S h =>
        obtain ⟨more, rfl⟩ := h.exists_toSet_eq
        have hitem : ClassItem (Byte.ofChar ']' :: rest) u more.toSet :=
          h.of_rangeFollows fun h => absurd h not_rangeFollows_bracket
        refine .andThen (r := Byte.ofChar ']' :: rest) (x := set') (Attempt.yields_orElse.mpr
          (classItem_yields.mpr ⟨u, _, by simp, hitem, hset⟩)) fun _ => ?_
        exact Attempt.yields_done.mpr ⟨rfl, rfl⟩
      | @cons u v S T h hv hitems =>
        have hlen := hitems.two_le_length
        obtain ⟨more, rfl⟩ := h.exists_toSet_eq
        have hitem : ClassItem (v ++ rest) u more.toSet :=
          h.of_rangeFollows (rangeFollows_append hlen).mp
        refine .andThen (r := v ++ rest) (x := set.union more) (Attempt.yields_orElse.mpr
          (classItem_yields.mpr ⟨u, _, by simp, hitem, ByteSet.toSet_union⟩)) fun hlt => ?_
        obtain ⟨c, v, rfl⟩ := List.exists_cons_of_length_pos (Nat.lt_of_succ_lt hlen)
        simp only [List.cons_append]
        rw [if_neg (by simpa using hv)]
        refine Attempt.yields_weaken.mpr ((ih _ hlt rfl).mpr ⟨_, T, rfl, hitems, ?_⟩)
        rw [hset, ByteSet.toSet_union, Set.union_assoc]

theorem anyOf_toSet {r : Regex} : AnyOf set.toSet r ↔ Regex.ofSet? set = some r := by
  constructor
  · rintro ⟨other, heq, hr⟩
    rwa [← ByteSet.toSet_injective heq]
  · exact fun hr => ⟨set, rfl, hr⟩

/-- The items of a whole class, which start with no bytes. -/
theorem classItems_empty_yields : (classItems n start .empty s).Yields set rest ↔
    ∃ u, s = u ++ rest ∧ ClassItems u set.toSet := by
  rw [classItems_yields, ByteSet.toSet_empty]
  simp only [Set.empty_union]
  constructor
  · rintro ⟨u, _, rfl, hu, rfl⟩
    exact ⟨u, rfl, hu⟩
  · rintro ⟨u, rfl, hu⟩
    exact ⟨u, _, rfl, hu, rfl⟩

theorem Grammar.ClassItems.exists_toSet_eq {u : Bytes} {S : Set UInt8} (h : ClassItems u S) :
    ∃ set : ByteSet, set.toSet = S := by
  induction h with
  | last h => exact h.exists_toSet_eq
  | cons h hv hitems ih =>
    obtain ⟨more, rfl⟩ := h.exists_toSet_eq
    obtain ⟨set, rfl⟩ := ih
    exact ⟨more.union set, ByteSet.toSet_union⟩

/-- A class is found by its opening bracket, the caret that may follow it, and its items. -/
theorem charClass_yields {r : Regex} : (charClass n s).Yields r rest ↔
    ∃ u, s = u ++ rest ∧ CharClass (Byte.ofChar '[' :: u) r := by
  unfold charClass
  constructor
  · intro hyields
    obtain ⟨set, r', hlt, hitems, h⟩ := Attempt.yields_andThen.mp hyields
    obtain ⟨u, hu, hset⟩ := classItems_empty_yields.mp (Attempt.yields_weaken.mp hitems)
    simp only at h
    split at h
    · exact absurd h Attempt.not_yields_fail
    · next r'' hr =>
      obtain ⟨rfl, rfl⟩ := Attempt.yields_done.mp h
      by_cases hcaret : s.head? = some (Byte.ofChar '^')
      · rw [if_pos (beq_iff_eq.mpr hcaret)] at hu hr
        obtain ⟨s, rfl⟩ := List.head?_eq_some_iff.mp hcaret
        obtain rfl := hu
        rw [← anyOf_toSet, ByteSet.toSet_complement] at hr
        exact ⟨_, rfl, .negated hset hr⟩
      · rw [if_neg (by simpa using hcaret)] at hu hr
        obtain rfl := hu
        rw [← anyOf_toSet] at hr
        refine ⟨u, rfl, .plain hset (fun hhead => hcaret ?_) hr⟩
        rw [List.head?_append, hhead]
        rfl
  · rintro ⟨u, rfl, hclass⟩
    cases hclass with
    | plain h hu hr =>
      obtain ⟨set, rfl⟩ := h.exists_toSet_eq
      -- The items do not begin with a caret, so the class is not taken for a negated one.
      have hcaret : ¬ ((u ++ rest).head? == some (Byte.ofChar '^')) = true := by
        obtain ⟨c, u, rfl⟩ := List.exists_cons_of_length_pos (Nat.lt_of_succ_lt h.two_le_length)
        simpa using hu
      refine .andThen (x := set) (r := rest) (Attempt.yields_weaken.mpr ?_) fun _ => ?_
      · rw [if_neg hcaret]
        exact classItems_empty_yields.mpr ⟨u, rfl, h⟩
      · simp only [if_neg hcaret, anyOf_toSet.mp hr]
        exact Attempt.yields_done.mpr ⟨rfl, rfl⟩
    | @negated u _ _ h hr =>
      obtain ⟨set, rfl⟩ := h.exists_toSet_eq
      rw [← ByteSet.toSet_complement, anyOf_toSet] at hr
      refine .andThen (x := set) (r := rest) (Attempt.yields_weaken.mpr ?_) fun _ => ?_
      · exact classItems_empty_yields.mpr ⟨u, rfl, h⟩
      · simp only [List.cons_append, List.head?_cons, beq_self_eq_true, if_true, hr]
        exact Attempt.yields_done.mpr ⟨rfl, rfl⟩

end Pattern

end Munch
