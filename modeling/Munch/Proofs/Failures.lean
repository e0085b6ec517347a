import Mathlib
import Munch.Proofs.OpenGroups

set_option autoImplicit false

/-! # Where a pattern is not well formed

The faults of a text that is not a pattern tell where it is broken
(`Pattern.diagnosis_of_parse_eq_error`). Either all of it up to a parenthesis that closes nothing is
a pattern, or something is wrong behind a start of a pattern, and the chain of faults goes inwards
through the groups that are open there.

Of the productions only some add a fault. For a production that fails, `Located` tells the faults
that are added from there on, given the groups that were open before: those opened since, and what
is wrong in the innermost of them (`Cause`). A group takes its parenthesis from the open ones to the
added ones, and the other productions leave both as they are. -/

namespace Munch

namespace Pattern

open Grammar

/-! ## How attempts fail -/

/-- The faults of a failure, the outermost first. -/
def Failure.faults (e : Failure) : List Fault := e.fault :: e.causes

namespace Attempt

variable {α β : Type} {s t : Bytes} {faults : List Fault}

/-- An attempt fails with some faults, the outermost first. -/
def Fails (a : Attempt α s) (faults : List Fault) : Prop :=
  ∃ e, a.result = .error e ∧ e.faults = faults

@[simp] theorem not_fails_done {x : Success α s} : ¬ (done x).Fails faults := by
  rintro ⟨e, h, -⟩
  cases h

@[simp] theorem fails_fail {f : Fault} : (fail f : Attempt α s).Fails faults ↔ faults = [f] := by
  constructor
  · rintro ⟨e, h, rfl⟩
    obtain rfl := Except.error.inj h
    rfl
  · rintro rfl
    exact ⟨_, rfl, rfl⟩

@[simp] theorem fails_entering {p : Production} {offset : Nat} {a : Attempt α s} :
    (entering p offset a).Fails faults ↔ a.Fails faults := Iff.rfl

@[simp] theorem fails_weaken {a : Attempt α t} {h : t.length ≤ s.length} :
    (a.weaken h).Fails faults ↔ a.Fails faults := by
  unfold Fails weaken
  cases a.result <;> simp [Except.map]

@[simp] theorem fails_map {a : Attempt α s} {f : α → β} :
    (a.map f).Fails faults ↔ a.Fails faults := by
  unfold Fails map
  cases a.result <;> simp [Except.map]

@[simp] theorem fails_orElse {a : Attempt α s} {f : Fault} :
    (a.orElse f).Fails faults ↔ ∃ causes, a.Fails causes ∧ faults = f :: causes := by
  unfold Fails orElse
  cases a.result with
  | ok x => simp [Except.mapError]
  | error e =>
    simp only [Except.mapError, Except.error.injEq]
    constructor
    · rintro ⟨_, rfl, rfl⟩
      exact ⟨e.faults, ⟨e, rfl, rfl⟩, rfl⟩
    · rintro ⟨_, ⟨_, rfl, rfl⟩, rfl⟩
      exact ⟨_, rfl, rfl⟩

/-- A continuation fails if what comes first does, or after its success. -/
theorem fails_andThen {a : Attempt α s} {f : Success α s → Attempt β s} :
    (a.andThen f).Fails faults ↔ a.Fails faults ∨
      ∃ (x : α) (r : Bytes) (h : r.length < s.length), a.Yields x r ∧
      (f ⟨x, r, h⟩).Fails faults := by
  unfold Fails Yields andThen
  cases a.result with
  | error e => simp
  | ok x =>
    simp only [reduceCtorEq, false_and, exists_false, false_or]
    constructor
    · exact fun h => ⟨x.value, x.rest, x.shorter, ⟨x.shorter, rfl⟩, h⟩
    · rintro ⟨_, _, _, ⟨_, hx⟩, h⟩
      obtain rfl := Except.ok.inj hx
      exact h

end Attempt

/-! ## Offsets -/

variable {s p t u v : Bytes} {faults : List Fault} {k : Nat}

theorem offsetIn_eq (hs : s = p ++ t) : offsetIn s.length t = p.length := by
  rw [offsetIn, hs, List.length_append, Nat.add_sub_cancel_right]

theorem offsetBefore_eq {b : UInt8} (hs : s = p ++ b :: t) :
    offsetBefore s.length t = p.length := by
  rw [offsetBefore, hs, List.length_append, List.length_cons, Nat.add_sub_cancel_right]

/-! ## Escapes and classes -/

/-- What is wrong with an item of the class at `k`, behind `u` and before `v`. -/
inductive ItemFault (k : Nat) (u v : Bytes) : Fault → Prop where
  /-- The class ends with the text before it has an item. -/
  | missing (hmode : (reading u).mode = .openedClass k ∨ (reading u).mode = .negatedClass k)
      (hv : v = []) : ItemFault k u v ⟨.classItem, u.length, .unterminatedClass⟩
  /-- The second bound of a range stands for a set of bytes. -/
  | bound {w rest : Bytes} {lo b : UInt8} {S : Set UInt8} (hmode : (reading u).mode.StartsItem k v)
      (hw : SingleByte w lo) (hb : Shorthand b S)
      (hv : v = w ++ Byte.ofChar '-' :: Byte.ofChar '\\' :: b :: rest) :
      ItemFault k u v ⟨.classItem, u.length, .shorthandAsBound⟩
  | escape (hmode : (reading u).mode.StartsItem k v) (hv : v = [Byte.ofChar '\\']) :
      ItemFault k u v ⟨.escape, u.length, .danglingBackslash⟩

/-- What is wrong behind `u` and before `v`, apart from the groups around it: the faults, the
    outermost first. -/
inductive Cause (u v : Bytes) : List Fault → Prop where
  /-- A sequence without an item. -/
  | sequence (hmode : (reading u).mode = .start)
      (hv : ∀ b ∈ v.head?, b = Byte.ofChar '|' ∨ b = Byte.ofChar ')') :
      Cause u v [⟨.sequence, u.length, .expectedExpression⟩]
  /-- A repetition operator without an item before it, or a byte that stands for nothing. -/
  | operator {b : UInt8} {w : Bytes} (hv : v = b :: w)
      (hb : (reading u).mode = .start ∧ (∃ c ∈ repeaters, b = Byte.ofChar c) ∨
        (reading u).mode.isOutside = true ∧ (b = Byte.ofChar ']' ∨ b = Byte.ofChar '^')) :
      Cause u v [⟨.char, u.length, .unexpectedOperator b⟩]
  | escape (hmode : (reading u).mode.isOutside = true) (hv : v = [Byte.ofChar '\\']) :
      Cause u v [⟨.escape, u.length, .danglingBackslash⟩]
  /-- A class with items that ends with the text. -/
  | openClass {w : Bytes} (hmode : (reading u).mode.isOutside = true)
      (hv : v = Byte.ofChar '[' :: w) (hend : (reading (u ++ v)).mode = .insideClass u.length) :
      Cause u v [⟨.charClass, u.length, .unterminatedClass⟩]
  /-- A negated class that leaves nothing. -/
  | emptyClass {w rest : Bytes} (hmode : (reading u).mode.isOutside = true)
      (hv : v = Byte.ofChar '[' :: Byte.ofChar '^' :: (w ++ rest)) (hw : ClassItems w Set.univ) :
      Cause u v [⟨.charClass, u.length, .classMatchesNothing⟩]
  | classItem {w rest : Bytes} {f : Fault} (hmode : (reading u).mode.isOutside = true)
      (hv : v = Byte.ofChar '[' :: (w ++ rest))
      (hf : ItemFault u.length (u ++ Byte.ofChar '[' :: w) rest f) :
      Cause u v [⟨.charClass, u.length, .invalidClass⟩, f]

theorem escape_fails {n : Nat} :
    (escape n t).Fails faults ↔
      t = [] ∧ faults = [⟨.escape, offsetBefore n [], .danglingBackslash⟩] := by
  unfold escape
  cases t <;> simp

/-- A byte or an escape of a class is missing, or only the backslash is there. -/
theorem classByte_fails {n : Nat} : (classByte n t).Fails faults ↔
    t = [] ∧ faults = [⟨.classItem, offsetIn n [], .unterminatedClass⟩] ∨
      t = [Byte.ofChar '\\'] ∧ faults = [⟨.escape, offsetBefore n [], .danglingBackslash⟩] := by
  unfold classByte
  cases t with
  | nil => simp
  | cons b t =>
    simp only [beq_iff_eq, List.cons.injEq, reduceCtorEq, false_and, false_or]
    by_cases hb : b = Byte.ofChar '\\'
    · rw [if_pos hb, Attempt.fails_weaken, escape_fails, and_iff_right hb]
    · rw [if_neg hb]
      exact iff_of_false Attempt.not_fails_done fun h => hb h.1.1

/-- Behind the dash of a range, only a backslash is left of its second bound. -/
theorem itemFault_of_dash {lo : UInt8} (hs : s = p ++ (u ++ [Byte.ofChar '-', Byte.ofChar '\\']))
    (hlo : SingleByte u lo) (hmode : (reading p).mode.StartsItem k u) :
    ItemFault k (p ++ (u ++ [Byte.ofChar '-'])) [Byte.ofChar '\\']
      ⟨.escape, offsetBefore s.length [], .danglingBackslash⟩ := by
  have hread : reading (p ++ (u ++ [Byte.ofChar '-'])) =
      (reading p).pastInClass k (u ++ [Byte.ofChar '-']) :=
    (reading_append p _).trans (hlo.read_dash hmode)
  have hback : s = p ++ (u ++ [Byte.ofChar '-']) ++ [Byte.ofChar '\\'] := by
    rw [hs, List.append_assoc, ← List.append_cons]
  rw [offsetBefore_eq hback]
  refine .escape ?_ rfl
  rw [hread]
  exact .inside (by simp)

/-- The faults of an item of a class. -/
theorem classItem_fails {set : ByteSet} (hs : s = p ++ t) (hmode : (reading p).mode.StartsItem k t)
    (hnil : t = [] → (reading p).mode ≠ .insideClass k)
    (hfails : (classItem s.length set t).Fails faults) :
    ∃ w rest f, t = w ++ rest ∧ faults = [f] ∧ ItemFault k (p ++ w) rest f := by
  unfold classItem at hfails
  rw [Attempt.fails_entering, offsetIn_eq hs] at hfails
  rcases Attempt.fails_andThen.mp hfails with hfirst | ⟨e, r, hlt, hfirst, h⟩
  · rcases classByte_fails.mp hfirst with ⟨rfl, rfl⟩ | ⟨rfl, rfl⟩
    · refine ⟨[], [], _, rfl, rfl, ?_⟩
      rw [offsetIn_eq hs, List.append_nil]
      exact .missing (hmode.eq_or.resolve_left (hnil rfl)) rfl
    · refine ⟨[], _, _, rfl, rfl, ?_⟩
      rw [offsetBefore_eq hs, List.append_nil]
      exact .escape hmode rfl
  · cases e with
    | set more => exact absurd h Attempt.not_fails_done
    | byte lo =>
      obtain ⟨u, rfl, hlo⟩ := classByte_yields_byte.mp hfirst
      simp only at h
      split at h
      · exact absurd h Attempt.not_fails_done
      · next t hsome =>
        obtain ⟨hrange, rfl⟩ := afterDash?_eq_some_iff.mp hsome
        rcases Attempt.fails_andThen.mp h with hsecond | ⟨e, r', _, hsecond, h⟩
        · rw [Attempt.fails_weaken] at hsecond
          rcases classByte_fails.mp hsecond with ⟨rfl, -⟩ | ⟨rfl, rfl⟩
          · obtain ⟨_, _, heq, -⟩ := hrange
            cases heq
          · have hfault := itemFault_of_dash hs hlo (hmode.of_append hlo.ne_nil)
            exact ⟨u ++ [Byte.ofChar '-'], [Byte.ofChar '\\'], _,
              List.append_cons _ _ _, rfl, hfault⟩
        · rw [Attempt.yields_weaken] at hsecond
          cases e with
          | byte hi => exact absurd h Attempt.not_fails_done
          | set more =>
            -- A shorthand is a set of bytes, which bounds no range.
            obtain ⟨b, rfl, hb⟩ := classByte_yields_set.mp hsecond
            rw [Attempt.fails_fail] at h
            refine ⟨[], _, _, rfl, h, ?_⟩
            rw [List.append_nil]
            exact .bound hmode hlo (shorthand_of_escapeOf hb) rfl

/-- The faults of the items of a class. -/
theorem classItems_fails {set : ByteSet} (hs : s = p ++ t) (hmode : (reading p).mode.StartsItem k t)
    (hnil : t = [] → (reading p).mode ≠ .insideClass k)
    (hfails : (classItems s.length k set t).Fails faults) :
    faults = [⟨.charClass, k, .unterminatedClass⟩] ∧ (reading s).mode = .insideClass k ∨
      ∃ w rest f, t = w ++ rest ∧ faults = [⟨.charClass, k, .invalidClass⟩, f] ∧
      ItemFault k (p ++ w) rest f := by
  induction hn : t.length using Nat.strong_induction_on generalizing p t set with
  | _ m ih =>
    subst hn
    rw [classItems] at hfails
    rcases Attempt.fails_andThen.mp hfails with hitem | ⟨x, r, hlt, hitem, h⟩
    · obtain ⟨causes, hcauses, hfaults⟩ := Attempt.fails_orElse.mp hitem
      obtain ⟨w, rest, f, ht, rfl, hf⟩ := classItem_fails hs hmode hnil hcauses
      exact .inr ⟨w, rest, f, ht, hfaults, hf⟩
    · obtain ⟨u, S, rfl, hu, -⟩ := classItem_yields.mp (Attempt.yields_orElse.mp hitem)
      have hread : reading (p ++ u) = (reading p).pastInClass k u :=
        (reading_append p u).trans (hu.read (hmode.of_append hu.ne_nil))
      rw [← List.append_assoc] at hs
      simp only at h
      split at h
      · rw [Attempt.fails_fail] at h
        rw [hs, List.append_nil, hread]
        exact .inl ⟨h, rfl⟩
      · next b r =>
        split at h
        · exact absurd h Attempt.not_fails_done
        · next hb =>
          rw [Attempt.fails_weaken] at h
          have hinside : (reading (p ++ u)).mode.StartsItem k (b :: r) := by
            rw [hread]
            exact .inside (by simpa using hb)
          -- The items that are passed move the place of the fault, but not the class that it is in.
          rcases ih _ hlt hs hinside nofun h rfl with hend | ⟨w, rest, f, heq, hfaults, hf⟩
          · exact .inl hend
          · refine .inr ⟨u ++ w, rest, f, by rw [heq, List.append_assoc], hfaults, ?_⟩
            rwa [← List.append_assoc]

/-- There is no expression for the bytes of a set if and only if there are none. -/
theorem ofSet?_eq_none_iff {set : ByteSet} : Regex.ofSet? set = none ↔ set.toSet = ∅ := by
  have hempty : set.toSet = ∅ ↔ set.ranges = [] := by
    rw [← ByteSet.toSet_empty]
    exact ⟨fun h => congrArg ByteSet.ranges (ByteSet.toSet_injective h),
      fun h => by cases set; cases h; rfl⟩
  rw [hempty]
  unfold Regex.ofSet?
  split
  · next h => exact iff_of_true rfl h
  · next h =>
    refine iff_of_false ?_ h
    split <;> exact Option.some_ne_none _

theorem Grammar.Shorthand.nonempty {b : UInt8} {S : Set UInt8} (h : Shorthand b S) :
    S.Nonempty := by
  cases h with
  | digit => exact ⟨Byte.ofChar '0', show IsDigit _ by decide⟩
  | notDigit => exact ⟨Byte.ofChar 'a', show ¬ IsDigit _ by decide⟩
  | blank => exact ⟨Byte.ofChar ' ', show IsBlank _ by decide⟩
  | notBlank => exact ⟨Byte.ofChar 'a', show ¬ IsBlank _ by decide⟩
  | word => exact ⟨Byte.ofChar 'a', show IsWordByte _ by decide⟩
  | notWord => exact ⟨Byte.ofChar ' ', show ¬ IsWordByte _ by decide⟩

/-- An item of a class stands for some byte. -/
theorem Grammar.ClassItem.nonempty {next : Bytes} {S : Set UInt8} (h : ClassItem next u S) :
    S.Nonempty := by
  cases h with
  | shorthand h => exact h.nonempty
  | single h hnext => exact Set.singleton_nonempty _
  | @range u v lo hi hlo hhi hv =>
    refine ⟨lo, ?_⟩
    rcases UInt8.le_total lo hi with h | h
    · exact .inl ⟨UInt8.le_refl lo, h⟩
    · exact .inr ⟨h, UInt8.le_refl lo⟩

theorem Grammar.ClassItems.nonempty {S : Set UInt8} (h : ClassItems u S) : S.Nonempty := by
  cases h with
  | last h => exact h.nonempty
  | cons h hv hitems => exact h.nonempty.inl

/-- Behind the opening bracket of a class and the caret that may follow it, its first item is looked
    for. -/
theorem exists_classStart (hmode : (reading p).mode.isOutside = true) (t : Bytes) : ∃ w,
    t = w ++ (if t.head? == some (Byte.ofChar '^') then t.tail else t) ∧
      (reading (p ++ Byte.ofChar '[' :: w)).mode.StartsItem p.length
        (if t.head? == some (Byte.ofChar '^') then t.tail else t) ∧
      (reading (p ++ Byte.ofChar '[' :: w)).mode ≠ .insideClass p.length := by
  have hopen : reading (p ++ [Byte.ofChar '[']) = ⟨p.length + 1,
      .openedClass p.length, openGroups p⟩ := by
    rw [reading_append, Reading.nextAll_cons, Reading.next_class hmode, offset_reading]
    rfl
  by_cases hcaret : t.head? = some (Byte.ofChar '^')
  · obtain ⟨t, rfl⟩ := List.head?_eq_some_iff.mp hcaret
    have hnegated : (reading (p ++ [Byte.ofChar '[', Byte.ofChar '^'])).mode =
        .negatedClass p.length := by
      rw [List.append_cons, reading_append, hopen]
      rfl
    exact ⟨[Byte.ofChar '^'], rfl, hnegated ▸ .negated, by rw [hnegated]; nofun⟩
  · rw [if_neg (by simpa using hcaret)]
    exact ⟨[], rfl, hopen ▸ .opened hcaret, by rw [hopen]; nofun⟩

/-- The faults of a class. -/
theorem charClass_fails (hs : s = p ++ Byte.ofChar '[' :: t)
    (hmode : (reading p).mode.isOutside = true) (hfails : (charClass s.length t).Fails faults) :
    Cause p (Byte.ofChar '[' :: t) faults := by
  simp only [charClass, Attempt.fails_entering, offsetBefore_eq hs] at hfails
  rcases Attempt.fails_andThen.mp hfails with hitems | ⟨set, r, hlt, hitems, h⟩
  · rw [Attempt.fails_weaken] at hitems
    obtain ⟨w, ht, hstarts, hne⟩ := exists_classStart hmode t
    have hbody : s = p ++ Byte.ofChar '[' :: w ++
        (if t.head? == some (Byte.ofChar '^') then t.tail else t) := by
      rw [List.append_assoc, List.cons_append, ← ht, hs]
    rcases classItems_fails hbody hstarts (fun _ => hne) hitems with
      ⟨rfl, hend⟩ | ⟨x, rest, f, hx, rfl, hf⟩
    · exact .openClass hmode rfl (hs ▸ hend)
    · rw [hx, ← List.append_assoc] at ht
      rw [List.append_assoc] at hf
      exact .classItem hmode (congrArg _ ht) hf
  · rw [Attempt.yields_weaken] at hitems
    obtain ⟨w, hw, hset⟩ := classItems_empty_yields.mp hitems
    simp only at h
    split at h
    · next hnone =>
      rw [Attempt.fails_fail] at h
      subst h
      rw [ofSet?_eq_none_iff] at hnone
      -- The items of a class have some byte, so only a negated class can be empty.
      by_cases hcaret : t.head? = some (Byte.ofChar '^')
      · rw [if_pos (beq_iff_eq.mpr hcaret)] at hw hnone
        obtain ⟨t, rfl⟩ := List.head?_eq_some_iff.mp hcaret
        rw [ByteSet.toSet_complement, Set.compl_empty_iff] at hnone
        obtain rfl := hw
        exact .emptyClass hmode rfl (hnone ▸ hset)
      · rw [if_neg (by simpa using hcaret)] at hnone
        exact absurd hnone hset.nonempty.ne_empty
    · exact absurd h Attempt.not_fails_done

/-! ## Items -/

theorem endsSequence_iff :
    endsSequence t = true ↔ ∀ b ∈ t.head?, b = Byte.ofChar '|' ∨ b = Byte.ofChar ')' := by
  cases t with
  | nil => exact iff_of_true rfl nofun
  | cons b t =>
    rw [endsSequence, Bool.or_eq_true, beq_iff_eq, beq_iff_eq]
    exact ⟨fun h _ hb => Option.some.inj hb ▸ h, fun h => h b rfl⟩

/-- Behind `p` and before `t`, an item is looked for: the sequence goes on, and no repetition
    operator is left. -/
structure LooksForItem (p t : Bytes) : Prop where
  outside : (reading p).mode.isOutside = true
  goesOn : endsSequence t = false
  repeats : (reading p).mode = .start ∨ ¬ RepeatFollows t

/-- Where an item is looked for, an operator is misplaced. A bar or a closing parenthesis would have
    ended the sequence, and an opening one begins a group. -/
theorem cause_of_isOperator {b : UInt8} (h : LooksForItem p (b :: t)) (hopen : b ≠ Byte.ofChar '(')
    (hop : isOperator b = true) : Cause p (b :: t) [⟨.char, p.length, .unexpectedOperator b⟩] := by
  obtain ⟨c, hc, rfl⟩ := isOperator_iff.mp hop
  have hrepeater (hc : c ∈ repeaters) : (reading p).mode = .start ∧ ∃ d ∈ repeaters,
      Byte.ofChar c = Byte.ofChar d :=
    ⟨h.repeats.resolve_right fun hnot => hnot ⟨c, hc, rfl⟩, c, hc, rfl⟩
  refine .operator rfl ?_
  simp only [List.mem_cons, List.not_mem_nil, or_false] at hc
  rcases hc with rfl | rfl | rfl | rfl | rfl | rfl | rfl | rfl
  · exact absurd h.goesOn Bool.true_eq_false.mp
  · exact .inl (hrepeater (by decide))
  · exact .inl (hrepeater (by decide))
  · exact .inl (hrepeater (by decide))
  · exact absurd rfl hopen
  · exact absurd h.goesOn Bool.true_eq_false.mp
  · exact .inr ⟨h.outside, .inl rfl⟩
  · exact .inr ⟨h.outside, .inr rfl⟩

/-- The faults of an item that is not a group. -/
theorem char_fails (hs : s = p ++ t) (h : LooksForItem p t)
    (hopen : t.head? ≠ some (Byte.ofChar '(')) (hfails : (char s.length t).Fails faults) :
    Cause p t faults := by
  unfold char at hfails
  rw [Attempt.fails_entering] at hfails
  cases t with
  | nil => cases h.goesOn
  | cons b t =>
    simp only [beq_iff_eq] at hfails
    split_ifs at hfails with hclass hdot hback hop
    · obtain rfl := hclass
      exact charClass_fails hs h.outside (Attempt.fails_weaken.mp hfails)
    · exact absurd hfails Attempt.not_fails_done
    · obtain rfl := hback
      rcases Attempt.fails_andThen.mp hfails with hescape | ⟨e, r, hlt, hescape, hrest⟩
      · obtain ⟨rfl, rfl⟩ := escape_fails.mp (Attempt.fails_weaken.mp hescape)
        rw [offsetBefore_eq hs]
        exact .escape h.outside rfl
      · obtain ⟨b, rfl, rfl⟩ := escape_yields.mp (Attempt.yields_weaken.mp hescape)
        simp only at hrest
        split at hrest
        · exact absurd hrest Attempt.not_fails_done
        · next set hset =>
          split at hrest
          · next hnone =>
              exact absurd (ofSet?_eq_none_iff.mp hnone)
                (shorthand_of_escapeOf hset).nonempty.ne_empty
          · exact absurd hrest Attempt.not_fails_done
    · rw [Attempt.fails_fail] at hfails
      rw [hfails, offsetIn_eq hs]
      exact cause_of_isOperator h (fun heq => hopen (congrArg some heq)) hop
    · exact absurd hfails Attempt.not_fails_done

/-! ## Starts of patterns -/

/-- A text that is the start of a pattern. -/
def Completable (u : Bytes) : Prop := ∃ v r, Alternation (u ++ v) r

theorem Completable.of_append (h : Completable (u ++ v)) : Completable u := by
  obtain ⟨w, r, h⟩ := h
  exact ⟨v ++ w, r, by rwa [← List.append_assoc]⟩

/-- With anything of a kind behind it, a text is the start of a pattern. -/
def Awaits {α : Type} (p : Bytes) (kind : Bytes → α → Prop) : Prop :=
  ∀ u x, kind u x → Completable (p ++ u)

theorem awaits_nil : Awaits [] Alternation := fun u r h => ⟨[], r, by rwa [List.append_nil]⟩

/-- The wildcard is an item, so there is something of every kind. -/
theorem item_any : Item [Byte.ofChar '.'] .any :=
  .repeated (u := [Byte.ofChar '.']) (.symbol .any) .nil

/-! ## Groups -/

/-- The fault that a group adds to those of what is in it. -/
def Fault.inGroup (k : Nat) : Fault := ⟨.group, k, .invalidGroup⟩

/-- The faults of a text, as they are added behind a place where the groups `outer` are open. -/
inductive Located (s : Bytes) (outer : List Nat) : List Fault → Prop where
  /-- The text ends in a group that is complete but for its parenthesis. -/
  | unclosed {u v : Bytes} {r : Regex} {opened : List Nat} (hs : s = u ++ Byte.ofChar '(' :: v)
      (hv : Alternation v r) (hmode : (reading u).mode.isOutside = true)
      (hopened : openGroups u = outer ++ opened) (hcomplete : Completable s) :
      Located s outer (opened.map Fault.inGroup ++ [⟨.group, u.length, .unclosedGroup⟩])
  | broken {u v : Bytes} {opened : List Nat} {causes : List Fault} (hs : s = u ++ v)
      (hopened : openGroups u = outer ++ opened) (hcomplete : Completable u)
      (h : Cause u v causes) : Located s outer (opened.map Fault.inGroup ++ causes)

variable {outer : List Nat}

/-- A group that is opened adds its fault. -/
theorem Located.inGroup (h : Located s (outer ++ [k]) faults) :
    Located s outer (Fault.inGroup k :: faults) := by
  cases h with
  | @unclosed u v r opened hs hv hmode hopened hcomplete =>
    rw [List.append_assoc, List.singleton_append] at hopened
    exact .unclosed hs hv hmode hopened hcomplete
  | @broken u v opened causes hs hopened hcomplete h =>
    rw [List.append_assoc, List.singleton_append] at hopened
    exact .broken hs hopened hcomplete h

theorem Cause.located (h : Cause u v faults) (hs : s = u ++ v) (hcomplete : Completable u) :
    Located s (openGroups u) faults :=
  .broken hs (List.append_nil _).symm hcomplete h

mutual

/-- The faults of an alternation are those of one of its sequences: behind a bar, the same groups
    are open. -/
theorem alternation_fails (s p t : Bytes) {faults : List Fault} (hs : s = p ++ t)
    (hmode : (reading p).mode = .start) (hp : Awaits p Alternation)
    (hfails : (alternation s.length t).Fails faults) : Located s (openGroups p) faults := by
  rw [alternation, Attempt.fails_entering] at hfails
  rcases Attempt.fails_andThen.mp hfails with hleft | ⟨left, rest, hlt, hleft, h⟩
  · exact sequence_fails s p t hs hmode (fun u r h => hp u r (.single h)) hleft
  · obtain ⟨u, rfl, hu, -⟩ := (sequence_yields _ t).mp hleft
    simp only at h
    split at h
    · exact absurd h Attempt.not_fails_done
    · next b t =>
      split at h
      · next hbar =>
        obtain rfl := eq_of_beq hbar
        rw [Attempt.fails_map, Attempt.fails_weaken] at h
        have hnext : reading (p ++ u ++ [Byte.ofChar '|']) =
            ⟨((reading p).past u).offset + 1, .start, openGroups p⟩ := by
          rw [reading_append, reading_append, hu.read (by rw [hmode]; rfl), Reading.nextAll_cons,
            Reading.next_bar rfl]
          rfl
        have hright := alternation_fails s (p ++ u ++ [Byte.ofChar '|']) t
          (by rw [hs]; simp) (by rw [hnext]) (fun v r hv => by simpa using hp _ _ (.alt hu hv)) h
        rwa [openGroups, hnext] at hright
      · exact absurd h Attempt.not_fails_done
termination_by (t.length, 5)

theorem sequence_fails (s p t : Bytes) {faults : List Fault} (hs : s = p ++ t)
    (hmode : (reading p).mode = .start) (hp : Awaits p Sequence)
    (hfails : (sequence s.length t).Fails faults) : Located s (openGroups p) faults := by
  rw [sequence, Attempt.fails_entering] at hfails
  split at hfails
  · next hends =>
    rw [Attempt.fails_fail, offsetIn_eq hs] at hfails
    subst hfails
    exact (Cause.sequence hmode (endsSequence_iff.mp hends)).located hs
      (hp _ _ (.single item_any)).of_append
  · next hends =>
    rw [Attempt.fails_map] at hfails
    have hitem : LooksForItem p t := ⟨by rw [hmode]; rfl, Bool.eq_false_iff.mpr hends, .inl hmode⟩
    exact items_fails s p t hs hitem (fun u rs h => hp u _ (sequence_iff.mpr ⟨rs, h, rfl⟩)) hfails
termination_by (t.length, 4)

/-- Behind an item that was found, another one is looked for in the same groups. -/
theorem items_fails (s p t : Bytes) {faults : List Fault} (hs : s = p ++ t)
    (hitem : LooksForItem p t) (hp : Awaits p Items) (hfails : (items s.length t).Fails faults) :
    Located s (openGroups p) faults := by
  rw [items] at hfails
  rcases Attempt.fails_andThen.mp hfails with hfirst | ⟨r, rest, hlt, hfirst, h⟩
  · exact item_fails s p t hs hitem (fun u r h => hp u [r] (.last h)) hfirst
  · obtain ⟨u, rfl, hu, hnext⟩ := (item_yields _ t).mp hfirst
    split at h
    · exact absurd h Attempt.not_fails_done
    · next hends =>
      rw [Attempt.fails_map, Attempt.fails_weaken] at h
      have hread : reading (p ++ u) = (reading p).past u :=
        (reading_append p u).trans (hu.read hitem.outside)
      have hlooks : LooksForItem (p ++ u) rest :=
        ⟨by rw [hread]; rfl, Bool.eq_false_iff.mpr hends, .inr hnext⟩
      have hlater := items_fails s (p ++ u) rest (by rw [hs, List.append_assoc]) hlooks
        (fun v rs hv => by simpa using hp _ _ (.cons hu hv)) h
      rwa [openGroups, hread] at hlater
termination_by (t.length, 3)

theorem item_fails (s p t : Bytes) {faults : List Fault} (hs : s = p ++ t)
    (hitem : LooksForItem p t) (hp : Awaits p Item) (hfails : (item s.length t).Fails faults) :
    Located s (openGroups p) faults := by
  rw [item, Attempt.fails_entering] at hfails
  rcases Attempt.fails_andThen.mp hfails with hatom | ⟨r, rest, hlt, hatom, h⟩
  · refine atom_fails s p t hs hitem (fun u r h => ?_) hatom
    exact hp u r (List.append_nil u ▸ .repeated h .nil)
  · exact absurd h Attempt.not_fails_done
termination_by (t.length, 2)

theorem atom_fails (s p t : Bytes) {faults : List Fault} (hs : s = p ++ t)
    (hitem : LooksForItem p t) (hp : Awaits p Atom) (hfails : (atom s.length t).Fails faults) :
    Located s (openGroups p) faults := by
  unfold atom at hfails
  rw [Attempt.fails_entering] at hfails
  have hcomplete : Completable p := (hp _ _ (.symbol .any)).of_append
  split at hfails
  · cases hitem.goesOn
  · next b t =>
    split at hfails
    · next hopen =>
      obtain rfl := eq_of_beq hopen
      exact group_fails s p t hs hitem.outside hp (Attempt.fails_weaken.mp hfails)
    · next hopen => exact (char_fails hs hitem (by simpa using hopen) hfails).located hs hcomplete
termination_by (t.length, 1)

/-- The parenthesis of a group is open for all that is found in it, so its fault comes before
    theirs. A group that is not closed ends with the text, since behind an alternation there is no
    other byte than the one that closes it. -/
theorem group_fails (s p t : Bytes) {faults : List Fault} (hs : s = p ++ Byte.ofChar '(' :: t)
    (houtside : (reading p).mode.isOutside = true) (hp : Awaits p Atom)
    (hfails : (group s.length t).Fails faults) : Located s (openGroups p) faults := by
  rw [group, Attempt.fails_entering, offsetBefore_eq hs] at hfails
  rcases Attempt.fails_andThen.mp hfails with hbody | ⟨r, rest, hlt, hbody, h⟩
  · obtain ⟨causes, hcauses, rfl⟩ := Attempt.fails_orElse.mp hbody
    have hread : reading (p ++ [Byte.ofChar '(']) = (reading p).enter :=
      (reading_append p _).trans (Reading.next_open houtside)
    have hinner := alternation_fails s (p ++ [Byte.ofChar '(']) t (by rw [hs, List.append_cons])
      (by rw [hread]; rfl)
      (fun u r hu => Completable.of_append (by simpa using hp _ r (.group hu))) hcauses
    rw [openGroups, hread, Reading.enter, offset_reading] at hinner
    exact hinner.inGroup
  · obtain ⟨u, rfl, hu, hends, hbar⟩ := (alternation_yields _ t).mp (Attempt.yields_orElse.mp hbody)
    simp only at h
    split at h
    · rw [Attempt.fails_fail] at h
      subst h
      rw [List.append_nil] at hs
      have hclosed : Completable (s ++ [Byte.ofChar ')']) := by simpa [hs] using hp _ r (.group hu)
      exact .unclosed hs hu houtside (List.append_nil _).symm hclosed.of_append
    · next b rest =>
      split at h
      · exact absurd h Attempt.not_fails_done
      · next hclose =>
        -- An alternation ends before a bar or a parenthesis, and goes on over a bar.
        rcases endsSequence_iff.mp hends b rfl with rfl | rfl
        · exact absurd rfl hbar
        · exact absurd rfl hclose
termination_by (t.length, 6)

end

/-! ## Diagnoses -/

/-- The faults of a text that is not a pattern, the outermost first. -/
inductive Diagnosis (s : Bytes) : List Fault → Prop where
  /-- All up to a parenthesis that closes nothing is a pattern. -/
  | unconsumed {u rest : Bytes} {r : Regex} (hs : s = u ++ Byte.ofChar ')' :: rest)
      (hu : Alternation u r) (hopened : openGroups u = []) :
      Diagnosis s [⟨.regex, u.length, .unconsumed (Byte.ofChar ')')⟩]
  /-- The text ends in a group, the innermost one that is open there, which is complete but for its
  parenthesis. -/
  | unclosed {u v : Bytes} {r : Regex} (hs : s = u ++ Byte.ofChar '(' :: v) (hv : Alternation v r)
      (hcomplete : Completable s) (hopened : openGroups s = openGroups u ++ [u.length]) :
      Diagnosis s (⟨.regex, 0, .invalidPattern⟩ ::
        ((openGroups u).map Fault.inGroup ++ [⟨.group, u.length, .unclosedGroup⟩]))
  /-- Something is wrong behind a start of a pattern. The groups around it are those that are open
      there, as they are wherever one of the causes is found. -/
  | broken {u v : Bytes} {causes : List Fault} (hs : s = u ++ v) (hcomplete : Completable u)
      (h : Cause u v causes) (hopened : ∀ f ∈ causes, openGroups (s.take f.offset) = openGroups u) :
      Diagnosis s (⟨.regex, 0, .invalidPattern⟩ :: ((openGroups u).map Fault.inGroup ++ causes))

theorem ItemFault.offset_eq {f : Fault} (h : ItemFault k u v f) : f.offset = u.length := by
  cases h <;> rfl

theorem ItemFault.class?_eq {f : Fault} (h : ItemFault k u v f) :
    (reading u).mode.class? = some k := by
  cases h with
  | missing hmode hv =>
    rcases hmode with hmode | hmode
    · exact congrArg Mode.class? hmode
    · exact congrArg Mode.class? hmode
  | bound hmode hw hb hv => exact hmode.class?_eq
  | escape hmode hv => exact hmode.class?_eq

/-- The causes of a failure are found one behind the other, in the groups that are open at the first
    of them. -/
theorem Cause.offsets (h : Cause u v faults) :
    (faults.map Fault.offset).Pairwise (· < ·) ∧
      ∀ f ∈ faults, u.length ≤ f.offset ∧ f.offset ≤ (u ++ v).length ∧
        openGroups ((u ++ v).take f.offset) = openGroups u := by
  have hlength : u.length ≤ (u ++ v).length := by simp
  have hsingle : ∀ f : Fault, f.offset = u.length → ∀ g ∈ [f], u.length ≤ g.offset ∧
      g.offset ≤ (u ++ v).length ∧ openGroups ((u ++ v).take g.offset) = openGroups u := by
    intro f hf g hg
    rw [List.mem_singleton.mp hg, hf, List.take_left]
    exact ⟨Nat.le_refl _, hlength, rfl⟩
  cases h with
  | @classItem w rest f hmode hv hf =>
    have happend : u ++ v = u ++ Byte.ofChar '[' :: w ++ rest := by
      rw [hv, List.append_assoc, List.cons_append]
    have hlt : u.length < (u ++ Byte.ofChar '[' :: w).length := by simp
    have hclass : openGroups (u ++ Byte.ofChar '[' :: w) = openGroups u := by
      rw [(openGroups_of_class hf.class?_eq).2, List.take_left]
    refine ⟨List.pairwise_pair.mpr (hf.offset_eq ▸ hlt),
      List.forall_mem_cons.mpr ⟨hsingle _ rfl _ (.head _), ?_⟩⟩
    rw [List.forall_mem_singleton, hf.offset_eq, happend, List.take_left, hclass]
    exact ⟨hlt.le, by simp, rfl⟩
  | _ => exact ⟨List.pairwise_singleton _ _, hsingle _ rfl⟩

/-- Behind the outermost fault, the faults of a text lie one behind the other within the text. -/
theorem Diagnosis.offsets (h : Diagnosis s faults) :
    (faults.tail.map Fault.offset).Pairwise (· < ·) ∧ ∀ f ∈ faults, f.offset ≤ s.length := by
  have hgroups (u : Bytes) :
      ((openGroups u).map Fault.inGroup).map Fault.offset = openGroups u := by
    rw [List.map_map]
    exact List.map_id _
  have hlt (u : Bytes) : ∀ f ∈ (openGroups u).map Fault.inGroup, f.offset < u.length :=
    List.forall_mem_map.mpr fun _ hk => lt_of_mem_openGroups hk
  cases h with
  | @unconsumed u rest r hs hu hopened =>
    refine ⟨.nil, List.forall_mem_singleton.mpr ?_⟩
    simp [hs]
  | @unclosed u v r hs hv hcomplete hopened =>
    have hle : u.length ≤ s.length := by simp [hs]
    rw [List.tail_cons, List.map_append, hgroups]
    refine ⟨pairwise_openGroups u, List.forall_mem_cons.mpr ⟨Nat.zero_le _,
      List.forall_mem_append.mpr ⟨?_, ?_⟩⟩⟩
    · exact fun f hf => (hlt u f hf).le.trans hle
    · exact List.forall_mem_singleton.mpr hle
  | @broken u v causes hs hcomplete h hopened =>
    have hle : u.length ≤ s.length := by simp [hs]
    rw [List.tail_cons, List.map_append, hgroups]
    refine ⟨List.pairwise_append.mpr ⟨?_, h.offsets.1, ?_⟩,
      List.forall_mem_cons.mpr ⟨Nat.zero_le _, List.forall_mem_append.mpr ⟨?_, ?_⟩⟩⟩
    · exact (List.pairwise_append.mp (pairwise_openGroups u)).1
    · intro k hk
      exact List.forall_mem_map.mpr fun f hf => Nat.lt_of_lt_of_le (lt_of_mem_openGroups hk)
        (h.offsets.2 f hf).1
    · exact fun f hf => (hlt u f hf).le.trans hle
    · exact fun f hf => hs ▸ (h.offsets.2 f hf).2.1

theorem Located.diagnosis (h : Located s [] faults) :
    Diagnosis s (⟨.regex, 0, .invalidPattern⟩ :: faults) := by
  cases h with
  | @unclosed u v r opened hs hv hmode hopened hcomplete =>
    rw [List.nil_append] at hopened
    subst hopened
    refine .unclosed hs hv hcomplete ?_
    have hread : reading s = (reading u).enter.past v := by
      rw [hs, reading_append, Reading.nextAll_cons, Reading.next_open hmode, hv.read rfl]
    rw [openGroups, hread, ← offset_reading]
    rfl
  | @broken u v opened causes hs hopened hcomplete h =>
    rw [List.nil_append] at hopened
    subst hopened
    exact .broken hs hcomplete h fun f hf => hs ▸ (h.offsets.2 f hf).2.2

/-- The faults of a text that is not a pattern tell where it is broken. Read inwards, they are the
    unmatched parenthesis alone, or the whole text, the groups that are open where something is
    wrong, and what is wrong there; behind the first of them each is found further behind, and none
    behind the end. -/
theorem diagnosis_of_parse_eq_error {e : ParseError} (h : parse s = .error e) :
    Diagnosis s e.chain.reverse ∧ (e.chain.reverse.tail.map Fault.offset).Pairwise (· < ·) ∧
      ∀ f ∈ e.chain, f.offset ≤ s.length ∧ e.position f = lineColumn s f.offset := by
  have hdiagnosis : e.text = s ∧ Diagnosis s e.failure.faults := by
    unfold parse attempt at h
    cases hbody : (alternation s.length s).result with
    | error inner =>
      simp only [hbody] at h
      obtain rfl := Except.error.inj h
      have hlocated := alternation_fails s [] s rfl rfl awaits_nil ⟨inner, hbody, rfl⟩
      exact ⟨rfl, hlocated.diagnosis⟩
    | ok x =>
      obtain ⟨u, hs, hu, hends, hbar⟩ :=
        (alternation_yields s.length s).mp (Attempt.yields_of_result hbody)
      simp only [hbody] at h
      split at h
      · cases h
      · next b rest hrest =>
        obtain rfl := Except.error.inj h
        rw [hrest] at hs hends hbar
        rcases endsSequence_iff.mp hends b rfl with rfl | rfl
        · exact absurd rfl hbar
        · refine ⟨rfl, ?_⟩
          rw [offsetIn_eq hs]
          exact .unconsumed hs hu (congrArg Reading.opened (hu.read rfl))
  obtain ⟨htext, hdiagnosis⟩ := hdiagnosis
  have hchain : e.chain.reverse = e.failure.faults := List.reverse_reverse _
  rw [hchain]
  refine ⟨hdiagnosis, hdiagnosis.offsets.1,
    fun f hf => ⟨hdiagnosis.offsets.2 f (List.mem_reverse.mp hf), ?_⟩⟩
  rw [ParseError.position, htext]

/-- In a group within a group, a range of a negated class has a shorthand as its second bound. -/
theorem diagnosis_of_parse_eq_error_bound :
    let s : Bytes := ['(', '\n', '(', '[', '^', 'a', '-', '\\', 'd', ']'].map Byte.ofChar
    let e : ParseError :=
  ⟨s, ⟨⟨.regex, 0, .invalidPattern⟩, [.inGroup 0, .inGroup 2, ⟨.charClass, 3, .invalidClass⟩,
      ⟨.classItem, 5, .shorthandAsBound⟩]⟩⟩
    parse s = .error e ∧ Diagnosis s e.chain.reverse ∧
      (e.chain.reverse.tail.map Fault.offset).Pairwise (· < ·) ∧
      (∀ f ∈ e.chain, f.offset ≤ s.length ∧ e.position f = lineColumn s f.offset) ∧
      lineColumn s 5 = ⟨2, 4⟩ := by
  intro s e
  have h : parse s = .error e := by cbv
  obtain ⟨hdiagnosis, hpairwise, hposition⟩ := diagnosis_of_parse_eq_error h
  exact ⟨h, hdiagnosis, hpairwise, hposition, by decide⟩

end Pattern

end Munch
