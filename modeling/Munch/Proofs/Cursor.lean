import Mathlib.Tactic.Common
import Munch.Pattern.Cursor
import Munch.Pattern.Trace

set_option autoImplicit false

/-! # The cursor of the parser

A run of the cursor `Agrees` with what the parser makes of the rest of the pattern at the cursor: it
enters the same productions, traces the rest of the pattern at each of them, comes to the same end,
and leaves the cursor where the rest that the parser leaves begins. -/

namespace Munch.Pattern.Cursor

variable {text : Bytes} {traced : Bool}

/-! ## Logs -/

/-- The event of a production that is entered. -/
def eventOf (text : Bytes) (v : Visit) : Event :=
  .enteringProduction v.production v.offset (text.drop v.offset)

/-- The cursor was inside the pattern wherever a production was entered, the rest of the pattern was
    traced there if the parser is traced, and every production that succeeded has moved the
    cursor. -/
structure Log.Sound (text : Bytes) (traced : Bool) (log : Log) : Prop where
  entries_le : ∀ v ∈ log.entries, v.offset ≤ text.length
  events_eq : log.events = if traced then log.entries.map (eventOf text) else []
  calls_lt : ∀ c ∈ log.calls, c.start < c.stop ∧ c.stop ≤ text.length

theorem Log.sound_empty : Log.Sound text traced ∅ where
  entries_le := nofun
  events_eq := by cases traced <;> rfl
  calls_lt := nofun

theorem Log.Sound.append {a b : Log} (ha : a.Sound text traced) (hb : b.Sound text traced) :
    (a ++ b).Sound text traced where
  entries_le v hv := (List.mem_append.mp hv).elim (ha.entries_le v) (hb.entries_le v)
  events_eq := by
    show a.events ++ b.events = if traced then (a.entries ++ b.entries).map (eventOf text) else []
    rw [ha.events_eq, hb.events_eq]
    cases traced
    · rfl
    · exact List.map_append.symm
  calls_lt c hc := (List.mem_append.mp hc).elim (ha.calls_lt c) (hb.calls_lt c)

/-! ## Attempts -/

section Attempts

variable {α β γ : Type} {s t : Bytes}

theorem map_andThen (a : Attempt α s) (f : Success α s → Attempt β s) (g : β → γ) :
    (a.andThen f).map g = a.andThen fun x => (f x).map g := by
  obtain ⟨visits, result⟩ := a
  cases result with
  | error e => rfl
  | ok x => rfl

theorem map_weaken_map (a : Attempt α t) (hle : t.length ≤ s.length) (f : α → β) (g : β → γ) :
    ((a.weaken hle).map f).map g = (a.map fun x => g (f x)).weaken hle := by
  obtain ⟨visits, result⟩ := a
  cases result with
  | error e => rfl
  | ok x => rfl

theorem items_ne_nil {n : Nat} {x : Success (List Regex) s}
    (h : (Pattern.items n s).result = .ok x) : x.value ≠ [] := by
  rw [Pattern.items] at h
  generalize Pattern.item n s = first at h
  obtain ⟨visits, result⟩ := first
  cases result with
  | error e => cases h
  | ok r =>
    change (if endsSequence r.rest then _ else _ : Attempt (List Regex) s).result = _ at h
    split at h
    · cases h
      exact List.cons_ne_nil _ _
    · generalize Pattern.items n r.rest = others at h
      obtain ⟨visits', result'⟩ := others
      cases result' with
      | error e => cases h
      | ok rs =>
        cases h
        exact List.cons_ne_nil _ _

/-- Items are never none, so that it does not matter whether that is looked at before or after they
    are parsed. -/
theorem map_sequenceOf (n start : Nat) (s : Bytes) : (Pattern.items n s).map sequenceOf =
    ((Pattern.items n s).map ([] ++ ·)).andThen fun x =>
      if x.value.isEmpty then .fail ⟨.sequence, start, .expectedExpression⟩
      else .done ⟨sequenceOf x.value, x.rest, x.shorter⟩ := by
  have hne := @items_ne_nil s n
  generalize Pattern.items n s = rs at hne
  obtain ⟨visits, result⟩ := rs
  cases result with
  | error e => rfl
  | ok x =>
    obtain ⟨value, rest, shorter⟩ := x
    cases value with
    | nil => exact absurd rfl (hne rfl)
    | cons r rs => exact congrArg (Attempt.mk · _) (List.append_nil visits).symm

end Attempts

/-! ## Runs and attempts -/

section Agrees

variable {α β : Type} {s t : Bytes} {pos : Nat}

theorem bind_of_returned {m : Run α} {f : α → Run β} {log : Log} {x : α} {stop : Nat}
    (h : m pos = ⟨log, .returned x stop⟩) :
    (m >>= f) pos = ⟨log ++ (f x stop).log, (f x stop).outcome⟩ := by
  show Run.bind m f pos = _
  rw [Run.bind, h]

theorem bind_of_pure {m : Run α} {f : α → Run β} {x : α} {stop : Nat}
    (h : m pos = (pure x : Run α) stop) : (m >>= f) pos = f x stop := bind_of_returned h

/-- What is logged where a production is entered. -/
def entry (text : Bytes) (traced : Bool) (p : Production) (pos : Nat) : Log :=
  ⟨[⟨p, pos⟩], if traced then [eventOf text ⟨p, pos⟩] else [], []⟩

theorem sound_entry (p : Production) (hpos : pos ≤ text.length) :
    (entry text traced p pos).Sound text traced where
  entries_le _ hv := List.mem_singleton.mp hv ▸ hpos
  events_eq := rfl
  calls_lt := nofun

theorem enter_eq (p : Production) (hpos : pos ≤ text.length) :
    enter text traced p pos = ⟨entry text traced p pos, .returned () pos⟩ := by
  cases traced with
  | false => rfl
  | true => exact if_pos hpos

/-- A run ends as an attempt does, with the cursor in front of what the attempt leaves. -/
inductive Ends (text : Bytes) {s : Bytes} : Except Failure (Success α s) → Outcome α → Prop
  | returned {x : Success α s} {pos : Nat} (hpos : pos ≤ text.length)
    (hrest : text.drop pos = x.rest) : Ends text (.ok x) (.returned x.value pos)
  | failed (e : Failure) : Ends text (.error e) (.failed e)

/-- A run fails, or it returns with the cursor further on and still in the pattern. -/
inductive MovesOn (text : Bytes) (pos : Nat) : Outcome α → Prop
  | returned {x : α} {stop : Nat} (hmoved : pos < stop) (hstop : stop ≤ text.length) :
    MovesOn text pos (.returned x stop)
  | failed (e : Failure) : MovesOn text pos (.failed e)

/-- A run does what an attempt does. -/
structure Agrees (text : Bytes) (traced : Bool) (a : Attempt α s) (r : Trail α) : Prop where
  entries : r.log.entries = a.visits
  sound : r.log.Sound text traced
  ends : Ends text a.result r.outcome

namespace Agrees

theorem done {x : Success α s} (hpos : pos ≤ text.length) (hrest : text.drop pos = x.rest) :
    Agrees text traced (.done x) ((pure x.value : Run α) pos) where
  entries := rfl
  sound := Log.sound_empty
  ends := .returned hpos hrest

theorem fail (f : Fault) (pos : Nat) :
    Agrees text traced (.fail f : Attempt α s) (Run.raise f pos) where
  entries := rfl
  sound := Log.sound_empty
  ends := .failed _

theorem bind {a : Attempt α s} {f : Success α s → Attempt β s} {m : Run α} {g : α → Run β}
    (h : Agrees text traced a (m pos))
    (hg : ∀ x pos', pos' ≤ text.length → text.drop pos' = x.rest →
      Agrees text traced (f x) (g x.value pos')) :
    Agrees text traced (a.andThen f) ((m >>= g) pos) := by
  obtain ⟨visits, result⟩ := a
  obtain ⟨hentries, hsound, hends⟩ := h
  show Agrees text traced _ (Run.bind m g pos)
  unfold Run.bind
  generalize m pos = r at hentries hsound hends
  obtain ⟨log, outcome⟩ := r
  cases hends with
  | @returned x pos' hpos hrest =>
    obtain ⟨hentries', hsound', hends'⟩ := hg x pos' hpos hrest
    refine ⟨?_, hsound.append hsound', hends'⟩
    show log.entries ++ _ = visits ++ _
    rw [hentries', hentries]
  | failed e => exact ⟨hentries, hsound, .failed e⟩

theorem map {a : Attempt α s} {f : α → β} {m : Run α} (h : Agrees text traced a (m pos)) :
    Agrees text traced (a.map f) ((m >>= fun x => pure (f x)) pos) := by
  obtain ⟨visits, result⟩ := a
  obtain ⟨hentries, hsound, hends⟩ := h
  show Agrees text traced _ (Run.bind m _ pos)
  unfold Run.bind
  generalize m pos = r at hentries hsound hends
  obtain ⟨log, outcome⟩ := r
  cases hends with
  | returned hpos hrest =>
    exact ⟨(List.append_nil _).trans hentries, hsound.append Log.sound_empty, .returned hpos hrest⟩
  | failed e => exact ⟨hentries, hsound, .failed e⟩

theorem weaken {a : Attempt α t} {r : Trail α} (h : Agrees text traced a r)
    (hle : t.length ≤ s.length) : Agrees text traced (a.weaken hle) r := by
  obtain ⟨visits, result⟩ := a
  obtain ⟨hentries, hsound, hends⟩ := h
  obtain ⟨log, outcome⟩ := r
  cases hends with
  | returned hpos hrest => exact ⟨hentries, hsound, .returned hpos hrest⟩
  | failed e => exact ⟨hentries, hsound, .failed e⟩

theorem orFault {a : Attempt α s} {m : Run α} (h : Agrees text traced a (m pos)) (f : Fault) :
    Agrees text traced (a.orElse f) (m.orFault f pos) := by
  obtain ⟨visits, result⟩ := a
  obtain ⟨hentries, hsound, hends⟩ := h
  unfold Run.orFault
  generalize m pos = r at hentries hsound hends
  obtain ⟨log, outcome⟩ := r
  cases hends with
  | returned hpos hrest => exact ⟨hentries, hsound, .returned hpos hrest⟩
  | failed e => exact ⟨hentries, hsound, .failed _⟩

/-- A cursor in front of less than before is further on, and an attempt leaves less than it
    found. -/
theorem movesOn {a : Attempt α s} {r : Trail α} (hlength : s.length ≤ text.length - pos)
    (h : Agrees text traced a r) : MovesOn text pos r.outcome := by
  obtain ⟨visits, result⟩ := a
  obtain ⟨-, -, hends⟩ := h
  generalize r.outcome = outcome at hends
  cases hends with
  | @returned x stop hstop hrest =>
    have hshorter := x.shorter
    rw [← hrest, List.length_drop] at hshorter
    exact .returned (by omega) hstop
  | failed e => exact .failed e

/-- The cursor of a production that succeeds has moved. -/
theorem call {p : Production} {a : Attempt α s} {m : Run α} (hpos : pos ≤ text.length)
    (hlength : s.length ≤ text.length - pos) (h : Agrees text traced a (m pos)) :
    Agrees text traced (a.entering p pos) (call text traced p m pos) := by
  have hmoves := h.movesOn hlength
  obtain ⟨visits, result⟩ := a
  obtain ⟨hentries, hsound, hends⟩ := h
  have hentry : (entry text traced p pos).Sound text traced := sound_entry p hpos
  have hbind : Cursor.call text traced p m pos =
      ⟨entry text traced p pos ++ (Run.bind m (fun x => Run.bind (leave p pos) fun _ =>
        Run.pure x) pos).log,
        (Run.bind m (fun x => Run.bind (leave p pos) fun _ => Run.pure x) pos).outcome⟩ :=
    bind_of_returned (enter_eq p hpos)
  rw [hbind]
  unfold Run.bind
  generalize m pos = r at hentries hsound hends hmoves
  obtain ⟨log, outcome⟩ := r
  cases hends with
  | @returned x stop hstop hrest =>
    -- A production that returns has taken a byte, so its call has moved the cursor.
    obtain ⟨hmoved, -⟩ := hmoves
    have hleave : Log.Sound text traced ⟨[], [], [⟨p, pos, stop⟩]⟩ := {
      entries_le := nofun
      events_eq := by cases traced <;> rfl
      calls_lt := fun c hc => List.mem_singleton.mp hc ▸ ⟨hmoved, hstop⟩ }
    refine ⟨?_, hentry.append (hsound.append (hleave.append Log.sound_empty)),
      .returned hstop hrest⟩
    show ⟨p, pos⟩ :: (log.entries ++ []) = _
    rw [List.append_nil, hentries]
    rfl
  | failed e =>
    refine ⟨?_, hentry.append hsound, .failed e⟩
    show ⟨p, pos⟩ :: log.entries = _
    rw [hentries]
    rfl

end Agrees

end Agrees

/-! ## Bytes, escapes and classes -/

section Productions

variable {α : Type} {s : Bytes} {pos turns : Nat} {b : UInt8}

/-- The byte at the cursor is the first one of the rest. -/
theorem getElem?_of_drop (h : text.drop pos = s) :
    text[pos]? = s.head? := by rw [← h, List.head?_drop]

theorem drop_of_cons (h : text.drop pos = b :: s) :
    text[pos]? = some b ∧ text.drop (pos + 1) = s ∧ pos < text.length := by
  refine ⟨getElem?_of_drop h, ?_, ?_⟩
  · rw [← List.tail_drop, h, List.tail_cons]
  · by_contra hle
    rw [List.drop_eq_nil_iff.mpr (Nat.le_of_not_lt hle)] at h
    cases h

theorem length_of_drop (h : text.drop pos = s) :
    s.length = text.length - pos := by rw [← h, List.length_drop]

theorem length_le_of_drop_cons (h : text.drop pos = b :: s) : s.length ≤ text.length - pos :=
  Nat.le_of_succ_le (Nat.le_of_eq (length_of_drop h))

theorem offsetIn_of_drop (hpos : pos ≤ text.length) (h : text.drop pos = s) :
    offsetIn text.length s = pos := by
  rw [offsetIn, length_of_drop h, Nat.sub_sub_self hpos]

theorem offsetBefore_of_drop (h : text.drop pos = b :: s) : offsetBefore text.length s = pos := by
  have hlt := (drop_of_cons h).2.2
  have hlength := length_of_drop (drop_of_cons h).2.1
  rw [offsetBefore, hlength]
  omega

theorem peek_bind (f : Option UInt8 → Run α) : (peek text >>= f) pos = f text[pos]? pos := rfl

theorem peekNext_bind (f : Option UInt8 → Run α) :
    (peekNext text >>= f) pos = f text[pos + 1]? pos := rfl

theorem here_bind (f : Nat → Run α) : (here >>= f) pos = f pos pos := rfl

theorem advance_bind (f : Unit → Run α) : (advance >>= f) pos = f () (pos + 1) := rfl

theorem eat_bind (f : Bool → Run α) : (eat text b >>= f) pos =
    f (text[pos]? == some b) (if text[pos]? == some b then pos + 1 else pos) := by
  show Run.bind (eat text b) f pos = _
  by_cases h : text[pos]? = some b
  · rw [Run.bind, eat, if_pos h, beq_iff_eq.mpr h]
    rfl
  · rw [Run.bind, eat, if_neg h, beq_eq_false_iff_ne.mpr h]
    rfl

theorem some_beq_some (c b : UInt8) : (some c == some b) = (c == b) := rfl

theorem agrees_escape (hs : text.drop pos = b :: s) :
    Agrees text traced (Pattern.escape text.length s) (escape text traced pos) := by
  obtain ⟨-, hrest, hlt⟩ := drop_of_cons hs
  unfold Pattern.escape
  rw [offsetBefore_of_drop hs]
  refine Agrees.call (Nat.le_of_lt hlt) (length_le_of_drop_cons hs) ?_
  rw [here_bind, advance_bind, peek_bind, getElem?_of_drop hrest]
  cases s with
  | nil =>
    rw [offsetBefore_of_drop hs]
    exact .fail _ (pos + 1)
  | cons c rest =>
    obtain ⟨-, hrest', hlt'⟩ := drop_of_cons hrest
    exact .done hlt' hrest'

theorem agrees_classByte (hpos : pos ≤ text.length) (hs : text.drop pos = s) :
    Agrees text traced (Pattern.classByte text.length s) (classByte text traced pos) := by
  rw [classByte, peek_bind, getElem?_of_drop hs]
  cases s with
  | nil =>
    rw [Pattern.classByte, offsetIn_of_drop hpos hs]
    exact .fail _ pos
  | cons c rest =>
    rw [Pattern.classByte, List.head?_cons]
    by_cases hc : (c == Byte.ofChar '\\') = true
    · simp only [if_pos hc]
      exact (agrees_escape hs).weaken _
    · obtain ⟨-, hrest, hlt⟩ := drop_of_cons hs
      simp only [if_neg hc]
      exact .done hlt hrest

/-- A range goes on behind a dash that is not the last byte before the closing bracket. -/
theorem afterDash?_of_drop (h : text.drop pos = s) : afterDash? s =
    if text[pos]? == some (Byte.ofChar '-') && text[pos + 1]?.any (· != Byte.ofChar ']')
    then some (text.drop (pos + 1)) else none := by
  cases s with
  | nil =>
    rw [getElem?_of_drop h]
    rfl
  | cons d rest =>
    obtain ⟨hd, hrest, -⟩ := drop_of_cons h
    rw [hd, hrest, getElem?_of_drop hrest]
    cases rest with
    | nil =>
      rw [List.head?_nil, Option.any_none, Bool.and_false]
      rfl
    | cons b rest => rfl

theorem agrees_classItem (set : ByteSet) (hpos : pos ≤ text.length) (hs : text.drop pos = s) :
    Agrees text traced (Pattern.classItem text.length set s) (classItem text traced set pos) := by
  unfold Pattern.classItem
  rw [offsetIn_of_drop hpos hs]
  refine Agrees.call hpos (Nat.le_of_eq (length_of_drop hs)) ?_
  rw [here_bind]
  refine (agrees_classByte hpos hs).bind fun x stop hstop hrest => ?_
  obtain ⟨value, rest, shorter⟩ := x
  have hdash := afterDash?_of_drop hrest
  cases value with
  | set more => exact .done hstop hrest
  | byte lo =>
    simp only [peek_bind, peekNext_bind]
    by_cases hcond : (text[stop]? == some (Byte.ofChar '-') && text[stop + 1]?.any
      (· != Byte.ofChar ']')) = true
    · rw [if_pos hcond] at hdash ⊢
      split
      · next hnone => cases hnone.symm.trans hdash
      · next t ht =>
        obtain rfl := Option.some.inj (hdash.symm.trans ht)
        -- The dash is a byte of the text, so the cursor may move behind it.
        have hlt : stop < text.length := by
          by_contra hle
          rw [List.getElem?_eq_none (Nat.le_of_not_lt hle)] at hcond
          cases hcond
        rw [advance_bind]
        refine ((agrees_classByte hlt rfl).weaken _).bind fun y stop' hstop' hrest' => ?_
        obtain ⟨value, rest', shorter'⟩ := y
        cases value with
        | set _ => exact .fail _ _
        | byte hi => exact .done hstop' hrest'
    · rw [if_neg hcond] at hdash ⊢
      split
      · exact .done hstop hrest
      · next t ht => cases ht.symm.trans hdash

/-- Every turn of the loop of a class takes an item, so there are fewer turns than bytes left. -/
theorem agrees_classItems (start turns : Nat) :
    ∀ {set pos s}, pos ≤ text.length → text.drop pos = s → s.length < turns →
      Agrees text traced (Pattern.classItems text.length start set s)
      (classItems text traced start turns set pos) := by
  induction turns with
  | zero => exact fun _ _ h => absurd h (Nat.not_lt_zero _)
  | succ turns ih =>
    intro set pos s hpos hs hturns
    rw [Pattern.classItems, classItems]
    refine ((agrees_classItem set hpos hs).orFault _).bind fun x stop hstop hrest => ?_
    obtain ⟨value, rest, shorter⟩ := x
    rw [peek_bind, getElem?_of_drop hrest]
    cases rest with
    | nil => exact .fail _ _
    | cons c rest =>
      obtain ⟨-, hrest', hlt⟩ := drop_of_cons hrest
      simp only [List.head?_cons]
      by_cases hc : (c == Byte.ofChar ']') = true
      · simp only [if_pos hc]
        exact .done hlt hrest'
      · simp only [if_neg hc]
        -- The item has taken a byte, and a turn is left for each of the others.
        have hfewer : (c :: rest).length < turns :=
          Nat.lt_of_lt_of_le shorter (Nat.le_of_lt_succ hturns)
        exact (ih hstop hrest hfewer).weaken _

theorem agrees_charClass (hs : text.drop pos = b :: s) (hturns : s.length < turns) :
    Agrees text traced (Pattern.charClass text.length s) (charClass text traced turns pos) := by
  obtain ⟨-, hrest, hlt⟩ := drop_of_cons hs
  unfold Pattern.charClass
  rw [offsetBefore_of_drop hs]
  refine Agrees.call (Nat.le_of_lt hlt) (length_le_of_drop_cons hs) ?_
  rw [here_bind, advance_bind, eat_bind, getElem?_of_drop hrest]
  -- The items begin behind a caret, if there is one.
  have hfrom : (if s.head? == some (Byte.ofChar '^') then pos + 1 + 1 else pos + 1) ≤
      text.length := by
    split
    · next hneg =>
      rw [beq_iff_eq, ← getElem?_of_drop hrest] at hneg
      exact (List.getElem?_eq_some_iff.mp hneg).1
    · exact hlt
  have hitems : text.drop (if s.head? == some (Byte.ofChar '^') then pos + 1 + 1 else pos + 1) =
      if s.head? == some (Byte.ofChar '^') then s.tail else s := by
    split
    · rw [← hrest, List.tail_drop]
    · exact hrest
  have hfewer : (if s.head? == some (Byte.ofChar '^') then s.tail else s).length < turns := by
    split
    · rw [List.length_tail]
      omega
    · exact hturns
  refine ((agrees_classItems pos turns hfrom hitems hfewer).weaken _).bind
    fun x stop hstop hrest' => ?_
  cases Regex.ofSet?
      (if s.head? == some (Byte.ofChar '^') then x.value.complement else x.value) with
  | none => exact .fail _ _
  | some r => exact .done hstop hrest'

theorem agrees_char (hpos : pos ≤ text.length) (hs : text.drop pos = s)
    (hturns : s.length ≤ turns) :
    Agrees text traced (Pattern.char text.length s) (char text traced turns pos) := by
  unfold Pattern.char
  rw [offsetIn_of_drop hpos hs]
  refine Agrees.call hpos (Nat.le_of_eq (length_of_drop hs)) ?_
  rw [here_bind, peek_bind, getElem?_of_drop hs]
  cases s with
  | nil =>
    rw [offsetIn_of_drop hpos hs]
    exact .fail _ pos
  | cons c rest =>
    obtain ⟨-, hrest, hlt⟩ := drop_of_cons hs
    simp only [List.head?_cons, offsetIn_of_drop hpos hs]
    by_cases hclass : (c == Byte.ofChar '[') = true
    · simp only [if_pos hclass]
      exact (agrees_charClass hs hturns).weaken _
    simp only [if_neg hclass]
    by_cases hdot : (c == Byte.ofChar '.') = true
    · simp only [if_pos hdot]
      exact .done hlt hrest
    simp only [if_neg hdot]
    by_cases hescape : (c == Byte.ofChar '\\') = true
    · simp only [if_pos hescape]
      refine ((agrees_escape hs).weaken _).bind fun x stop hstop hrest' => ?_
      obtain ⟨value, rest', shorter⟩ := x
      cases value with
      | byte b => exact .done hstop hrest'
      | set set =>
        dsimp only
        cases Regex.ofSet? set with
        | none => exact .fail _ _
        | some r => exact .done hstop hrest'
    simp only [if_neg hescape]
    by_cases hoperator : isOperator c = true
    · simp only [if_pos hoperator]
      exact .fail _ _
    · simp only [if_neg hoperator]
      exact .done hlt hrest

/-! ## Expressions -/

/-- Every turn of the loop over repetition operators takes one. -/
theorem repeats_of_drop (turns : Nat) :
    ∀ {r pos s}, pos ≤ text.length → text.drop pos = s → s.length < turns →
    ∃ stop, stop ≤ text.length ∧ text.drop stop = (Pattern.repeats r s).2 ∧
      repeats text turns r pos = (pure (Pattern.repeats r s).1 : Run Regex) stop := by
  induction turns with
  | zero => exact fun _ _ h => absurd h (Nat.not_lt_zero _)
  | succ turns ih =>
    intro r pos s hpos hs hturns
    rw [repeats, peek_bind, getElem?_of_drop hs]
    cases s with
    | nil => exact ⟨pos, hpos, hs, rfl⟩
    | cons c rest =>
      obtain ⟨-, hrest, hlt⟩ := drop_of_cons hs
      have hfewer : rest.length < turns := Nat.lt_of_succ_lt_succ hturns
      simp only [List.head?_cons, Pattern.repeats]
      by_cases hstar : (c == Byte.ofChar '*') = true
      · simp only [if_pos hstar]
        exact ih hlt hrest hfewer
      simp only [if_neg hstar]
      by_cases hplus : (c == Byte.ofChar '+') = true
      · simp only [if_pos hplus]
        exact ih hlt hrest hfewer
      simp only [if_neg hplus]
      by_cases hmaybe : (c == Byte.ofChar '?') = true
      · simp only [if_pos hmaybe]
        exact ih hlt hrest hfewer
      · simp only [if_neg hmaybe]
        exact ⟨pos, hpos, hs, rfl⟩

/-- The loop of a sequence ends in front of what ends the sequence. -/
theorem items_of_endsSequence (rs : List Regex) (hturns : 0 < turns) (hs : text.drop pos = s)
    (hend : endsSequence s = true) :
    items text traced turns rs pos = (pure rs : Run (List Regex)) pos := by
  obtain ⟨turns, rfl⟩ := Nat.exists_eq_succ_of_ne_zero (Nat.ne_of_gt hturns)
  rw [items, peek_bind, getElem?_of_drop hs]
  cases s with
  | nil => rfl
  | cons c rest => exact congrFun (if_pos hend) pos

/-- The loop of a sequence takes an item in front of anything else. -/
theorem items_of_not_endsSequence (rs : List Regex) (hs : text.drop pos = s)
    (hend : endsSequence s = false) : items text traced (turns + 1) rs pos =
      (item text traced turns >>= fun r => items text traced turns (rs ++ [r])) pos := by
  rw [items, peek_bind, getElem?_of_drop hs]
  cases s with
  | nil => cases hend
  | cons c rest => exact congrFun (if_neg (Bool.eq_false_iff.mp hend)) pos

/-- What the productions of an expression do in some turns, if these are enough: some for each byte
    that is left, and one for each production that can be entered before the first of these bytes is
    taken. -/
structure AgreesWithin (text : Bytes) (traced : Bool) (turns : Nat) : Prop where
  alternation : ∀ {pos s}, pos ≤ text.length → text.drop pos = s → 8 * s.length + 6 ≤ turns →
    Agrees text traced (Pattern.alternation text.length s) (alternation text traced turns pos)
  sequence : ∀ {pos s}, pos ≤ text.length → text.drop pos = s → 8 * s.length + 5 ≤ turns →
    Agrees text traced (Pattern.sequence text.length s) (sequence text traced turns pos)
  items : ∀ {pos s} (rs : List Regex), pos ≤ text.length → text.drop pos = s →
    endsSequence s = false → 8 * s.length + 4 ≤ turns →
    Agrees text traced ((Pattern.items text.length s).map (rs ++ ·))
    (items text traced turns rs pos)
  item : ∀ {pos s}, pos ≤ text.length → text.drop pos = s → 8 * s.length + 3 ≤ turns →
    Agrees text traced (Pattern.item text.length s) (item text traced turns pos)
  atom : ∀ {pos s}, pos ≤ text.length → text.drop pos = s → 8 * s.length + 2 ≤ turns →
    Agrees text traced (Pattern.atom text.length s) (atom text traced turns pos)
  group : ∀ {pos b s}, text.drop pos = b :: s → 8 * (s.length + 1) + 1 ≤ turns →
    Agrees text traced (Pattern.group text.length s) (group text traced turns pos)

section Succ

variable (h : AgreesWithin text traced turns)

include h

theorem agrees_alternation (hpos : pos ≤ text.length) (hs : text.drop pos = s)
    (hturns : 8 * s.length + 6 ≤ turns + 1) :
    Agrees text traced (Pattern.alternation text.length s)
    (alternation text traced (turns + 1) pos) := by
  rw [Pattern.alternation, offsetIn_of_drop hpos hs]
  refine Agrees.call hpos (Nat.le_of_eq (length_of_drop hs)) ?_
  refine (h.sequence hpos hs (Nat.le_of_succ_le_succ hturns)).bind fun x stop hstop hrest => ?_
  obtain ⟨value, rest, shorter⟩ := x
  rw [eat_bind, getElem?_of_drop hrest]
  cases rest with
  | nil => exact .done hstop hrest
  | cons c rest =>
    obtain ⟨-, hrest', hlt⟩ := drop_of_cons hrest
    have hfewer : rest.length + 1 < s.length := shorter
    rw [List.head?_cons, some_beq_some]
    by_cases hbar : (c == Byte.ofChar '|') = true
    · simp only [if_pos hbar]
      exact ((h.alternation hlt hrest' (by omega)).weaken _).map
    · simp only [if_neg hbar]
      exact .done hstop hrest

theorem agrees_sequence (hpos : pos ≤ text.length) (hs : text.drop pos = s)
    (hturns : 8 * s.length + 5 ≤ turns + 1) :
    Agrees text traced (Pattern.sequence text.length s) (sequence text traced (turns + 1) pos) := by
  rw [Pattern.sequence, offsetIn_of_drop hpos hs]
  refine Agrees.call hpos (Nat.le_of_eq (length_of_drop hs)) ?_
  rw [here_bind]
  cases hend : endsSequence s with
  | true =>
    have hnone : items text traced turns [] pos = (pure [] : Run (List Regex)) pos :=
      items_of_endsSequence [] (by omega) hs hend
    rw [bind_of_pure hnone]
    exact .fail _ pos
  | false =>
    rw [if_neg Bool.false_ne_true, map_sequenceOf text.length pos s]
    exact (h.items [] hpos hs hend (Nat.le_of_succ_le_succ hturns)).bind
        fun x stop hstop hrest => by
      by_cases hnone : x.value.isEmpty = true
      · simp only [if_pos hnone]
        exact .fail _ stop
      · simp only [if_neg hnone]
        exact .done hstop hrest

theorem agrees_items (rs : List Regex) (hpos : pos ≤ text.length) (hs : text.drop pos = s)
    (hend : endsSequence s = false) (hturns : 8 * s.length + 4 ≤ turns + 1) :
    Agrees text traced ((Pattern.items text.length s).map (rs ++ ·))
    (items text traced (turns + 1) rs pos) := by
  rw [items_of_not_endsSequence rs hs hend, Pattern.items, map_andThen]
  refine (h.item hpos hs (Nat.le_of_succ_le_succ hturns)).bind fun x stop hstop hrest => ?_
  obtain ⟨value, rest, shorter⟩ := x
  have hfewer : rest.length < s.length := shorter
  cases hmore : endsSequence rest with
  | true =>
    have hlast : items text traced turns (rs ++ [value]) stop =
        (pure (rs ++ [value]) : Run (List Regex)) stop :=
      items_of_endsSequence (rs ++ [value]) (by omega) hrest hmore
    rw [hlast]
    exact .done hstop hrest
  | false =>
    -- The items that are left come behind those so far and this one.
    have hturns' : 8 * rest.length + 4 ≤ turns := by omega
    have hitems := (h.items (rs ++ [value]) hstop hrest hmore hturns').weaken (Nat.le_of_lt hfewer)
    rw [if_neg Bool.false_ne_true, map_weaken_map]
    simpa only [List.append_assoc, List.cons_append, List.nil_append] using hitems

theorem agrees_item (hpos : pos ≤ text.length) (hs : text.drop pos = s)
    (hturns : 8 * s.length + 3 ≤ turns + 1) :
    Agrees text traced (Pattern.item text.length s) (item text traced (turns + 1) pos) := by
  rw [Pattern.item, offsetIn_of_drop hpos hs]
  refine Agrees.call hpos (Nat.le_of_eq (length_of_drop hs)) ?_
  refine (h.atom hpos hs (Nat.le_of_succ_le_succ hturns)).bind fun x stop hstop hrest => ?_
  have hfewer := x.shorter
  obtain ⟨stop', hstop', hrest', hrepeats⟩ := repeats_of_drop turns hstop hrest (by omega)
  rw [hrepeats]
  exact .done hstop' hrest'

theorem agrees_atom (hpos : pos ≤ text.length) (hs : text.drop pos = s)
    (hturns : 8 * s.length + 2 ≤ turns + 1) :
    Agrees text traced (Pattern.atom text.length s) (atom text traced (turns + 1) pos) := by
  rw [Pattern.atom.eq_def, offsetIn_of_drop hpos hs]
  refine Agrees.call hpos (Nat.le_of_eq (length_of_drop hs)) ?_
  rw [peek_bind, getElem?_of_drop hs]
  cases s with
  | nil => exact agrees_char hpos hs (Nat.zero_le _)
  | cons c rest =>
    rw [List.head?_cons, some_beq_some]
    by_cases hopen : (c == Byte.ofChar '(') = true
    · simp only [if_pos hopen]
      exact (h.group hs (Nat.le_of_succ_le_succ hturns)).weaken _
    · simp only [if_neg hopen]
      refine agrees_char hpos hs ?_
      omega

theorem agrees_group (hs : text.drop pos = b :: s) (hturns : 8 * (s.length + 1) + 1 ≤ turns + 1) :
    Agrees text traced (Pattern.group text.length s) (group text traced (turns + 1) pos) := by
  obtain ⟨-, hrest, hlt⟩ := drop_of_cons hs
  rw [Pattern.group, offsetBefore_of_drop hs]
  refine Agrees.call (Nat.le_of_lt hlt) (length_le_of_drop_cons hs) ?_
  rw [here_bind, advance_bind]
  refine ((h.alternation hlt hrest (by omega)).orFault _).bind fun x stop hstop hrest' => ?_
  obtain ⟨value, rest, shorter⟩ := x
  rw [eat_bind, getElem?_of_drop hrest']
  cases rest with
  | nil => exact .fail _ stop
  | cons c rest =>
    obtain ⟨-, hbehind, hlt'⟩ := drop_of_cons hrest'
    rw [List.head?_cons, some_beq_some]
    by_cases hclose : (c == Byte.ofChar ')') = true
    · simp only [if_pos hclose]
      exact .done hlt' hbehind
    · simp only [if_neg hclose]
      exact .fail _ _

end Succ

/-- Each production is given one turn less than the production that it is entered from, and needs
    one turn less. -/
theorem agreesWithin (text : Bytes) (traced : Bool) (turns : Nat) :
    AgreesWithin text traced turns := by
  induction turns with
  | zero =>
    constructor <;> intros <;> omega
  | succ turns ih =>
    exact ⟨agrees_alternation ih, agrees_sequence ih, agrees_items ih, agrees_item ih,
      agrees_atom ih, agrees_group ih⟩

/-- Every production that is entered with the cursor in the pattern, and in front of a byte if it
    takes one unseen, moves the cursor on or fails, if it has enough turns. -/
structure MovesOnWithin (text : Bytes) (traced : Bool) (turns : Nat) : Prop where
  alternation : ∀ pos ≤ text.length, 8 * (text.length - pos) + 6 ≤ turns →
    MovesOn text pos (alternation text traced turns pos).outcome
  sequence : ∀ pos ≤ text.length, 8 * (text.length - pos) + 5 ≤ turns →
    MovesOn text pos (sequence text traced turns pos).outcome
  item : ∀ pos ≤ text.length, 8 * (text.length - pos) + 3 ≤ turns →
    MovesOn text pos (item text traced turns pos).outcome
  atom : ∀ pos ≤ text.length, 8 * (text.length - pos) + 2 ≤ turns →
    MovesOn text pos (atom text traced turns pos).outcome
  group : ∀ pos < text.length, 8 * (text.length - pos) + 1 ≤ turns →
    MovesOn text pos (group text traced turns pos).outcome
  char : ∀ pos ≤ text.length, text.length - pos ≤ turns →
    MovesOn text pos (char text traced turns pos).outcome
  charClass : ∀ pos < text.length, text.length - pos ≤ turns →
    MovesOn text pos (charClass text traced turns pos).outcome
  classItem : ∀ set, ∀ pos ≤ text.length, MovesOn text pos (classItem text traced set pos).outcome
  escape : ∀ pos < text.length, MovesOn text pos (escape text traced pos).outcome

theorem movesOnWithin (text : Bytes) (traced : Bool) (turns : Nat) :
    MovesOnWithin text traced turns := by
  have hagrees := agreesWithin text traced turns
  have hlength : ∀ pos, (text.drop pos).length = text.length - pos := fun _ => List.length_drop
  -- In front of a byte, the rest is that byte and what is left behind it.
  have hcons : ∀ pos < text.length, ∃ b, text.drop pos = b :: text.drop (pos + 1) :=
    fun pos hpos => ⟨text[pos], List.drop_eq_getElem_cons hpos⟩
  have hbehind : ∀ pos, (text.drop (pos + 1)).length ≤ text.length - pos := fun pos => by
    rw [hlength]
    omega
  constructor
  · intro pos hpos hturns
    exact (hagrees.alternation hpos rfl (hlength pos ▸ hturns)).movesOn (Nat.le_of_eq (hlength pos))
  · intro pos hpos hturns
    exact (hagrees.sequence hpos rfl (hlength pos ▸ hturns)).movesOn (Nat.le_of_eq (hlength pos))
  · intro pos hpos hturns
    exact (hagrees.item hpos rfl (hlength pos ▸ hturns)).movesOn (Nat.le_of_eq (hlength pos))
  · intro pos hpos hturns
    exact (hagrees.atom hpos rfl (hlength pos ▸ hturns)).movesOn (Nat.le_of_eq (hlength pos))
  · intro pos hpos hturns
    obtain ⟨b, hb⟩ := hcons pos hpos
    have hfewer := hlength (pos + 1)
    exact (hagrees.group hb (by omega)).movesOn (hbehind pos)
  · intro pos hpos hturns
    exact (agrees_char hpos rfl (hlength pos ▸ hturns)).movesOn (Nat.le_of_eq (hlength pos))
  · intro pos hpos hturns
    obtain ⟨b, hb⟩ := hcons pos hpos
    have hfewer := hlength (pos + 1)
    exact (agrees_charClass hb (by omega)).movesOn (hbehind pos)
  · intro set pos hpos
    exact (agrees_classItem set hpos rfl).movesOn (Nat.le_of_eq (hlength pos))
  · intro pos hpos
    obtain ⟨b, hb⟩ := hcons pos hpos
    exact (agrees_escape hb).movesOn (hbehind pos)

end Productions

/-! ## Whole patterns -/

/-- The parser of a whole pattern as an attempt on it. -/
def whole (text : Bytes) : Attempt Regex text :=
  Attempt.entering .regex 0 <|
    ((Pattern.alternation text.length text).orElse ⟨.regex, 0, .invalidPattern⟩).andThen fun x =>
      match x.rest with
      | [] => .done ⟨x.value.complete, x.rest, x.shorter⟩
      | b :: rest => .fail ⟨.regex, offsetIn text.length (b :: rest), .unconsumed b⟩

theorem attempt_eq (text : Bytes) :
    attempt text =
      ((whole text).visits, (whole text).result.map (·.value) |>.mapError (⟨text, ·⟩)) := by
  rw [attempt, whole]
  generalize Pattern.alternation text.length text = body
  obtain ⟨visits, result⟩ := body
  cases result with
  | error e => rfl
  | ok x =>
    obtain ⟨value, rest, shorter⟩ := x
    cases rest with
    | nil => exact congrArg (Prod.mk · _) (congrArg _ (List.append_nil visits).symm)
    | cons b rest => exact congrArg (Prod.mk · _) (congrArg _ (List.append_nil visits).symm)

theorem agrees_regex (text : Bytes) (traced : Bool) {turns : Nat}
    (hturns : 8 * text.length + 6 ≤ turns) :
    Agrees text traced (whole text) (run text traced turns) := by
  refine Agrees.call (Nat.zero_le _) (Nat.le_refl _) ?_
  have hbody := (agreesWithin text traced turns).alternation (Nat.zero_le _) List.drop_zero hturns
  refine (hbody.orFault _).bind fun x stop hstop hrest => ?_
  obtain ⟨value, rest, shorter⟩ := x
  rw [peek_bind, getElem?_of_drop hrest]
  cases rest with
  | nil => exact .done hstop hrest
  | cons b rest =>
    have hoffset : offsetIn text.length (b :: rest) = stop := offsetIn_of_drop hstop hrest
    simp only [hoffset]
    exact .fail _ stop

/-- With eight turns for each byte and a few more, a run comes to an end whether or not it is
    traced, and makes of the pattern what the parser makes of it. The cursor is inside the pattern
    wherever a production is entered, so that the rest that is traced there can be cut out, and
    every production that succeeds has moved it. So it is for each production by itself, from any
    place of the cursor: it fails, or it returns with the cursor further on. -/
theorem run_in_bounds (text : Bytes) (traced : Bool) (extra : Nat) :
    let t := run text traced (8 * text.length + 6 + extra)
    t.result? text = some (parse text) ∧ t.log.entries = visits text ∧
      t.log.events = (if traced then visitEvents text else []) ∧
        (∀ v ∈ t.log.entries, v.offset ≤ text.length) ∧
        (∀ c ∈ t.log.calls, c.start < c.stop ∧ c.stop ≤ text.length) ∧
          ∀ turns, MovesOnWithin text traced turns := by
  intro t
  have hagrees : Agrees text traced (whole text) t :=
    agrees_regex text traced (Nat.le_add_right _ _)
  obtain ⟨hentries, hsound, hends⟩ := hagrees
  have hvisits : t.log.entries = visits text := by rw [hentries, visits, attempt_eq]
  refine ⟨?_, hvisits, ?_, hsound.entries_le, hsound.calls_lt, movesOnWithin text traced⟩
  · rw [parse, attempt_eq]
    unfold Trail.result?
    generalize t.outcome = outcome at hends
    generalize (whole text).result = result at hends
    cases hends with
    | returned hpos hrest => rfl
    | failed e => rfl
  · rw [hsound.events_eq, hvisits]
    rfl

/-- The class of `a|[b` is not closed, but its only item and the first sequence have moved the
    cursor. -/
example : (run [97, 124, 91, 98] true 40).log.calls =
    [⟨.char, 0, 1⟩, ⟨.atom, 0, 1⟩, ⟨.item, 0, 1⟩, ⟨.sequence, 0, 1⟩, ⟨.classItem, 3, 4⟩] := by
  decide

end Munch.Pattern.Cursor
