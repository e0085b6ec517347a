import Munch.Proofs.Delivery
import Munch.Proofs.LongestMatch
import Munch.Scan.Stream

set_option autoImplicit false

/-! # Scanning a source is scanning its text

A stream looks at the bytes of its source one after the other, as far as its table goes on. If the
source delivers a text, a walk over it comes to what the table finds in the text
(`Stream.walk_comesTo`), so a step of the stream returns what a step of a scan of the text returns
at the cursor, and moves the cursor to the end of a match (`Stream.step_of_lt`). It differs only
where no pattern matches and the start state accepts the empty text, which ends the stream.

So the steps of a stream, with any bytes skipped between them, return what the scan of the text
returns at the cursors that they come to, whether the source is the text itself or a reader that
brings it in pieces (`Stream.answers_eq_scanAnswers`). -/

namespace Munch

namespace Stream

variable {σ : Type} [ByteSource σ] {text : Bytes} {failure? : Option String}
  {At : Nat → Bool → σ → Prop} {t : Table} {tc i : Nat} {seen : Bool} {source : σ} {w : Walk}

/-! ## Walks -/

namespace Walk

/-- The longest match of a walk that started at a cursor, as a scan of the text tells it: a match of
    the empty text does not count, and the end is an offset of the text. -/
def best (tc : Nat) (w : Walk) : Option (Nat × Nat) :=
  match w.longest? with
  | some (id, length + 1) => some (id, tc + (length + 1))
  | _ => none

/-- The bytes of a walk before the one that led to the error state. -/
def passed (w : Walk) : Bytes := if w.failed then w.bytes.dropLast else w.bytes

/-- What a walk remembers once it went through the bytes up to an offset: a match that ends there at
    the latest, or what the start state accepts. -/
structure Remembers (t : Table) (tc i : Nat) (w : Walk) : Prop where
  longest_le : ∀ m ∈ w.longest?, tc + m.2 ≤ i
  of_best_eq_none : w.best tc = none → w.longest? = (t.accept? t.start).map (·, 0)

/-- A walk that goes on at an offset of a text has gone through the bytes from the cursor to
    there. -/
structure GoesOn (t : Table) (text : Bytes) (tc i : Nat) (w : Walk) : Prop where
  le : tc ≤ i
  le_length : i ≤ text.length
  bytes_eq : w.bytes = text.slice tc i
  failed_eq : w.failed = false
  remembers : w.Remembers t tc i

/-- A walk has come to what a scan of the text finds. -/
structure ComesTo (t : Table) (text : Bytes) (tc : Nat) (found : Finding) (w : Walk) : Prop where
  le_fail : tc ≤ found.fail
  fail_le : found.fail ≤ text.length
  bytes_eq : w.bytes = text.slice tc (found.fail + 1)
  passed_eq : w.passed = text.slice tc found.fail
  best_eq : w.best tc = found.longest?
  remembers : w.Remembers t tc found.fail

/-- The walk after one more byte, which led to a state that accepts `accept?`. -/
def next (w : Walk) (b : UInt8) (accept? : Option Nat) : Walk :=
  { w with
    bytes := w.bytes ++ [b]
    longest? := match accept? with
      | some id => some (id, (w.bytes ++ [b]).length)
      | none => w.longest? }

theorem best_of_longest {id length : Nat} (h : w.longest? = some (id, length)) (hpos : 0 < length) :
    w.best tc = some (id, tc + length) := by
  obtain ⟨n, rfl⟩ := Nat.exists_eq_succ_of_ne_zero (Nat.ne_of_gt hpos)
  rw [best, h]

theorem slice_append_getElem {b : UInt8} (htc : tc ≤ i) (hb : text[i]? = some b) :
    text.slice tc i ++ [b] = text.slice tc (i + 1) := by
  obtain ⟨hlt, rfl⟩ := List.getElem?_eq_some_iff.mp hb
  have hone : text.slice i (i + 1) = [text[i]] := by
    rw [Bytes.slice, Nat.add_sub_cancel_left, List.drop_eq_getElem_cons hlt]
    rfl
  rw [← hone, text.slice_append_slice htc (Nat.le_succ i)]

theorem GoesOn.length_eq (h : w.GoesOn t text tc i) : tc + w.bytes.length = i := by
  have hle := h.le
  have hle' := h.le_length
  rw [h.bytes_eq, Bytes.length_slice_eq_min]
  omega

/-- A walk that started before the end of a text comes to the error state unless it uses the text
    up. -/
theorem ComesTo.not_failed_eq {found : Finding} (h : w.ComesTo t text tc found)
    (htc : tc < text.length) : (!w.failed) = decide (found.fail = text.length) := by
  have hle := h.le_fail
  have hle' := h.fail_le
  have hlength := congrArg List.length h.bytes_eq
  have hpassed := congrArg List.length h.passed_eq
  rw [Bytes.length_slice_eq_min] at hlength hpassed
  unfold passed at hpassed
  cases hfailed : w.failed with
  | true =>
    rw [hfailed, if_pos rfl, List.length_dropLast] at hpassed
    rw [Bool.not_true, eq_comm, decide_eq_false_iff_not]
    omega
  | false =>
    rw [hfailed, if_neg Bool.false_ne_true] at hpassed
    rw [Bool.not_false, eq_comm, decide_eq_true_iff]
    omega

theorem GoesOn.next (h : w.GoesOn t text tc i) {b : UInt8} (hb : text[i]? = some b)
    (accept? : Option Nat) :
      (w.next b accept?).GoesOn t text tc (i + 1) ∧ (w.next b accept?).best tc = match accept? with
      | some id => some (id, i + 1)
      | none => w.best tc := by
  have hlt : i < text.length := (List.getElem?_eq_some_iff.mp hb).1
  have hbytes : w.bytes ++ [b] = text.slice tc (i + 1) := by
    rw [h.bytes_eq, slice_append_getElem h.le hb]
  have hlength : tc + (w.bytes ++ [b]).length = i + 1 := by
    rw [List.length_append, List.length_singleton, ← Nat.add_assoc, h.length_eq]
  cases accept? with
  | none =>
    refine ⟨⟨Nat.le_succ_of_le h.le, hlt, hbytes, h.failed_eq, fun m hm => ?_, ?_⟩, rfl⟩
    · exact Nat.le_succ_of_le (h.remembers.longest_le m hm)
    · exact h.remembers.of_best_eq_none
  | some id =>
    have hbest : (w.next b (some id)).best tc = some (id, i + 1) := by
      have hlongest : (w.next b (some id)).longest? = some (id, (w.bytes ++ [b]).length) := rfl
      rw [best_of_longest hlongest (by simp), hlength]
    refine ⟨⟨Nat.le_succ_of_le h.le, hlt, hbytes, h.failed_eq, fun m hm => ?_, fun hnone => ?_⟩,
      hbest⟩
    · obtain rfl : (id, (w.bytes ++ [b]).length) = m := Option.some.inj hm
      exact Nat.le_of_eq hlength
    · rw [hbest] at hnone
      cases hnone

end Walk

/-- A walk over a source that delivers a text comes to what the table finds in the text. It asks for
    something behind the last byte unless it comes to the error state. -/
theorem walkFrom_comesTo (hd : ByteSource.Delivers text failure? At)
    (hsize : text.length < wordCount) (limit : Nat) {state : Nat} (hw : w.GoesOn t text tc i)
    (h : At tc seen source) (hlimit : text.length < i + limit) :
    (walkFrom t limit source state w).1.ComesTo t text tc
      (t.findFrom state i (w.best tc) (text.drop i)) ∧
      At tc (seen || !(walkFrom t limit source state w).1.failed)
      (walkFrom t limit source state w).2 := by
  induction limit generalizing seen source state i w with
  | zero => exact absurd hlimit (Nat.not_lt_of_le hw.le_length)
  | succ limit ih =>
    have hle := hw.le
    have hle' := hw.le_length
    have hlength := hw.length_eq
    obtain ⟨hpeek, hat⟩ := hd.peek (k := w.bytes.length) h (by omega)
    rw [hlength] at hpeek hat
    rw [walkFrom]
    simp only [hpeek]
    cases hb : text[i]? with
    | none =>
      have hge : text.length ≤ i := List.getElem?_eq_none_iff.mp hb
      obtain rfl : i = text.length := Nat.le_antisymm hle' hge
      rw [decide_eq_true (Nat.le_refl _)] at hat
      rw [List.drop_length, Table.findFrom]
      simp only [hw.failed_eq, Bool.not_false]
      refine ⟨⟨hle, Nat.le_refl _, ?_, ?_, rfl, hw.remembers⟩, hat⟩
      -- Past the end of the text there is nothing more.
      · rw [hw.bytes_eq, Bytes.slice, Bytes.slice, List.take_eq_take_iff, List.length_drop]
        show _ = min (text.length + 1 - tc) _
        omega
      · rw [Walk.passed, hw.failed_eq, if_neg Bool.false_ne_true, hw.bytes_eq]
    | some b =>
      obtain ⟨hlt, hget⟩ := List.getElem?_eq_some_iff.mp hb
      rw [decide_eq_false (Nat.not_le_of_lt hlt), Bool.or_false] at hat
      rw [List.drop_eq_getElem_cons hlt, hget, Table.findFrom]
      simp only
      by_cases herror : t.next state b = Table.error
      · rw [if_pos herror, if_pos herror]
        simp only [Bool.not_true, Bool.or_false]
        refine ⟨⟨hle, hle', ?_, ?_, rfl, ⟨hw.remembers.1, hw.remembers.2⟩⟩, hat⟩
        · show w.bytes ++ [b] = _
          rw [hw.bytes_eq, Walk.slice_append_getElem hle hb]
        · rw [Walk.passed, if_pos rfl, List.dropLast_concat, hw.bytes_eq]
      · obtain ⟨hnext, hbest⟩ := hw.next hb (t.accept? (t.next state b))
        have hrest := @ih _ _ _ _ (t.next state b) hnext hat (by omega)
        rw [hbest] at hrest
        rw [if_neg herror, if_neg herror]
        exact hrest

/-- A walk starts with what the start state accepts. -/
theorem Walk.goesOn_start (t : Table) (htc : tc ≤ text.length) :
    GoesOn t text tc tc ⟨[], false, (t.accept? t.start).map (·, 0)⟩ := by
  refine ⟨Nat.le_refl tc, htc, ?_, rfl, fun m hm => ?_, fun _ => rfl⟩
  · rw [Bytes.slice, Nat.sub_self, List.take_zero]
  · obtain ⟨id, _, rfl⟩ := Option.map_eq_some_iff.mp hm
    exact Nat.le_refl tc

theorem Walk.best_start (t : Table) (tc : Nat) :
    best tc ⟨[], false, (t.accept? t.start).map (·, 0)⟩ = none := by
  rw [best]
  cases t.accept? t.start <;> rfl

/-- A walk from the cursor of a source that delivers a text comes to what the table finds there. -/
theorem walk_comesTo (hd : ByteSource.Delivers text failure? At) (hsize : text.length < wordCount)
    (t : Table) (h : At tc seen source) :
    (walk t source).1.ComesTo t text tc (t.find text tc) ∧
      At tc (seen || !(walk t source).1.failed) (walk t source).2 := by
  have hreach := hd.length_le_reach h
  rw [Table.find, ← Walk.best_start t]
  exact walkFrom_comesTo hd hsize (ByteSource.reach source + 1)
    (Walk.goesOn_start t (hd.le_length h)) h (by omega)

/-! ## Steps -/

/-- The position of the byte under the cursor, with its offset, is the tracker that went there. -/
theorem mk_position_along (htc : tc ≤ text.length) (hsize : text.length < wordCount) :
    Tracker.mk tc (Tracker.along text tc).position.line (Tracker.along text tc).position.column =
      .along text tc := by
  have hoffset := Tracker.offset_along htc (Nat.lt_of_le_of_lt htc hsize)
  generalize Tracker.along text tc = tracker at hoffset ⊢
  subst hoffset
  rfl

theorem dropLast_slice {stop : Nat} (htc : tc < stop) (hstop : stop ≤ text.length) :
    (text.slice tc stop).dropLast = text.slice tc (stop - 1) := by
  rw [List.dropLast_eq_take, Bytes.length_slice hstop, Bytes.slice, Bytes.slice, List.take_take]
  congr 1
  omega

/-- The match that is made of a walk is the match that a scan of the text makes. -/
theorem matchAt_eq {found : Finding} (hw : w.ComesTo t text tc found)
    (hsize : text.length < wordCount) {id length : Nat} (hlongest : w.longest? = some (id, length))
    (hpos : 0 < length) (b : UInt8) :
    matchAt ⟨b, tc, (Tracker.along text tc).position⟩ id (w.bytes.take length) =
      (Scanner.matchAt text .start id tc (tc + length)).1 := by
  have hle := hw.remembers.longest_le _ hlongest
  have hfail := hw.fail_le
  have htc : tc ≤ text.length := Nat.le_trans hw.le_fail hfail
  have hbytes : w.bytes.take length = text.slice tc (tc + length) := by
    rw [hw.bytes_eq, Bytes.slice, Bytes.slice, List.take_take]
    congr 1
    omega
  have hlast : (Tracker.along text tc).advanceAll (text.slice tc (tc + length)).dropLast =
      .along text (tc + length - 1) := by
    rw [dropLast_slice (by omega) (by omega), Tracker.advanceAll_slice (by omega)]
  rw [matchAt, hbytes, mk_position_along htc hsize, hlast, Scanner.matchAt, Tracker.seek_seek,
    Tracker.position_seek htc, Tracker.position_seek (by omega)]

/-- The place at which a walk found no match is the one that a scan of the text tells. -/
theorem unconsumedAt_eq {found : Finding} (hw : w.ComesTo t text tc found)
    (hsize : text.length < wordCount) (b : UInt8) :
    unconsumedAt ⟨b, tc, (Tracker.along text tc).position⟩ w =
      (Scanner.unconsumedAt text .start tc found.fail).1 := by
  have hfail := hw.fail_le
  have htc : tc ≤ text.length := Nat.le_trans hw.le_fail hfail
  have hlast : (Tracker.along text tc).advanceAll w.passed = .along text found.fail := by
    rw [hw.passed_eq, Tracker.advanceAll_slice hw.le_fail]
  rw [unconsumedAt, mk_position_along htc hsize]
  show Unconsumed.mk _ ((Tracker.along text tc).advanceAll w.passed).offset _
    ((Tracker.along text tc).advanceAll w.passed).position _ = _
  rw [hlast, Tracker.offset_along hfail (Nat.lt_of_le_of_lt hfail hsize), hw.bytes_eq,
    Scanner.unconsumedAt, Tracker.seek_seek, Tracker.position_seek htc, Tracker.position_seek hfail]

variable {s : Stream σ}

theorem step_of_finished (h : s.finished = true) : s.step = (none, s) := by
  rw [step, if_pos h]

/-- The source under the cursor, after its byte was looked at. -/
theorem current_eq (hd : ByteSource.Delivers text failure? At) (h : At tc seen s.source)
    (htc : tc < text.length) : ∃ source, ByteSource.current s.source =
      (some ⟨text[tc], tc, (Tracker.along text tc).position⟩, source) ∧ At tc seen source := by
  obtain ⟨hcurrent, hat⟩ := hd.current h
  rw [List.getElem?_eq_getElem htc, Option.map_some] at hcurrent
  rw [decide_eq_false (Nat.not_le_of_lt htc), Bool.or_false] at hat
  exact ⟨_, Prod.ext hcurrent rfl, hat⟩

/-- Where a stream goes on: its cursor, and whether something behind the last byte of the text was
    asked for. -/
structure Standing where
  tc : Nat
  seen : Bool
deriving DecidableEq, Repr

/-- What a step returns where it tells no failure, and where the stream goes on unless the step ends
    it. It returns what a scan of the text reports, and goes on from the end of a match. If no
    pattern matches, it ends the stream if the start state accepts, and goes on from where it is
    otherwise. -/
def Standing.proceed (t : Table) (text : Bytes) (p : Standing) :
    Option (Except ScanError Match) × Option Standing :=
  match Scanner.report text p.tc (t.find text p.tc) with
  | .ok m => (some (.ok m), some ⟨m.stop, p.seen⟩)
  | .error u =>
    match t.accept? t.start with
    | none => (some (.error (.unconsumed u)), some p)
    | some id => (some (.error (.emptyMatch id p.tc (lineColumn text p.tc))), none)

/-- A step over a source that fails after a text, or ends there: what it returns, and where the
    stream goes on unless the step ends it. A failure is told once it is known, be it that it was
    known before or that the table goes on to the end of the text. -/
def Standing.step (t : Table) (text : Bytes) (failure? : Option String) (p : Standing) :
    Option (Except ScanError Match) × Option Standing :=
  if text.length ≤ p.tc then (failure?.map (.error ∘ .io), none)
  else
    let seen := p.seen || decide ((t.find text p.tc).fail = text.length)
    match if seen then failure? else none with
    | some e => (some (.error (.io e)), none)
    | none => proceed t text ⟨p.tc, seen⟩

/-- A stream with a table stands somewhere in the text of its source, or it has ended. -/
def StandsAt (At : Nat → Bool → σ → Prop) (t : Table) (s : Stream σ) : Option Standing → Prop
  | none => s.finished = true
  | some p => s.table = t ∧ s.finished = false ∧ At p.tc p.seen s.source

/-- What is returned after the end of the text is the failure of the source, if it has one. -/
theorem step_of_end (hd : ByteSource.Delivers text failure? At) (h : At text.length seen s.source)
    (hfin : s.finished = false) :
    s.step.1 = failure?.map (.error ∘ .io) ∧ s.step.2.finished = true := by
  obtain ⟨hcurrent, hat⟩ := hd.current h
  rw [List.getElem?_eq_none (Nat.le_refl _), Option.map_none] at hcurrent
  rw [decide_eq_true (Nat.le_refl _), Bool.or_true] at hat
  have herror : (ByteSource.takeError (ByteSource.current s.source).2).1 = failure? := by
    rw [hd.takeError_eq hat, hd.error?_eq hat, if_pos rfl]
  rw [step, if_neg (by simp [hfin])]
  simp only [hcurrent, finish, herror, Option.map_map, and_self]

/-- A step of a stream whose source delivers a text is the step from where the stream stands. -/
theorem StandsAt.step_eq (hd : ByteSource.Delivers text failure? At)
    (hsize : text.length < wordCount) {p : Standing} (h : s.StandsAt At t (some p)) :
      s.step.1 = (p.step t text failure?).1 ∧
      s.step.2.StandsAt At t (p.step t text failure?).2 := by
  obtain ⟨tc, seen⟩ := p
  obtain ⟨rfl, hfin, hat⟩ : s.table = t ∧ s.finished = false ∧ At tc seen s.source := h
  rcases Nat.lt_or_eq_of_le (hd.le_length hat) with htc | rfl
  · obtain ⟨source, hcurrent, hat⟩ := current_eq hd hat htc
    obtain ⟨hw, hat'⟩ := walk_comesTo hd hsize s.table hat
    rw [hw.not_failed_eq htc] at hat'
    have herror := hd.error?_eq hat'
    rw [step, if_neg (by simp [hfin])]
    simp only [Standing.step, if_neg (Nat.not_le_of_lt htc), hcurrent]
    generalize walk s.table source = out at hw hat' herror ⊢
    simp only [herror]
    cases hfailure :
        if (seen || decide ((s.table.find text tc).fail = text.length)) = true
        then failure? else none with
    | some e =>
      rw [hfailure] at herror
      simp only [finish, hd.takeError_eq hat', herror]
      exact ⟨rfl, rfl⟩
    | none =>
      simp only
      unfold Standing.proceed Scanner.report
      rw [← hw.best_eq]
      rcases hlongest : out.1.longest? with _ | ⟨id, _ | length⟩
      · have hbest : out.1.best tc = none := by rw [Walk.best, hlongest]
        have hstart := hw.remembers.of_best_eq_none hbest
        rw [hlongest, eq_comm, Option.map_eq_none_iff] at hstart
        simp only [hbest, hstart, unconsumedAt_eq hw hsize, true_and]
        exact ⟨rfl, hfin, hd.record _ hat'⟩
      · have hbest : out.1.best tc = none := by rw [Walk.best, hlongest]
        have hstart := hw.remembers.of_best_eq_none hbest
        rw [hlongest, eq_comm, Option.map_eq_some_iff] at hstart
        obtain ⟨_, hstart, heq⟩ := hstart
        obtain rfl := (Prod.mk.inj heq).1
        simp only [hbest, hstart]
        rw [Tracker.position_along htc.le (by omega)]
        exact ⟨rfl, rfl⟩
      · have hpos := Nat.succ_pos length
        have hle := hw.remembers.longest_le _ hlongest
        have hfail := hw.fail_le
        have hadvance := hd.advance (length + 1) hat'
        have hstop : (Scanner.matchAt text .start id tc (tc + (length + 1))).1.stop =
            tc + (length + 1) :=
          Scanner.stop_matchAt (Nat.le_add_right ..) (Nat.le_trans hle hfail)
        -- A match that ends with the text was found by a walk that used the text up.
        have hseen : (seen || decide ((s.table.find text tc).fail = text.length) ||
            decide (text.length ≤ tc + (length + 1))) =
              (seen || decide ((s.table.find text tc).fail = text.length)) := by
          rw [Bool.or_assoc, ← Bool.decide_or]
          congr 2
          simp only [eq_iff_iff]
          omega
        rw [Nat.min_eq_left (Nat.le_trans hle hfail), hseen] at hadvance
        simp only [Walk.best_of_longest hlongest hpos,
          matchAt_eq hw hsize hlongest hpos, hstop, true_and]
        exact ⟨rfl, hfin, hadvance⟩
  · obtain ⟨hnone, hended⟩ := step_of_end hd hat hfin
    rw [Standing.step, if_pos (Nat.le_refl _)]
    exact ⟨hnone, hended⟩

theorem StandsAt.skip (hd : ByteSource.Delivers text failure? At)
    (h : s.StandsAt At t (some ⟨tc, seen⟩)) (n : Nat) : (s.skip n).StandsAt At t
      (some ⟨min (tc + n) text.length, seen || decide (text.length ≤ tc + n)⟩) :=
  ⟨h.1, h.2.1, hd.advance n h.2.2⟩

/-- The stream goes on from a cursor. -/
structure GoesOn (At : Nat → Bool → σ → Prop) (t : Table) (tc : Nat) (s : Stream σ) : Prop where
  table_eq : s.table = t
  finished_eq : s.finished = false
  at_cursor : ∃ seen, At tc seen s.source

omit [ByteSource σ] in
theorem StandsAt.goesOn {p : Standing} (h : s.StandsAt At t (some p)) : s.GoesOn At t p.tc :=
  ⟨h.1, h.2.1, p.seen, h.2.2⟩

/-- Before the end of the text, no step over a source that does not fail tells a failure. -/
theorem GoesOn.exists_proceed (hd : ByteSource.Delivers text none At)
    (hsize : text.length < wordCount) (h : s.GoesOn At t tc) (htc : tc < text.length) : ∃ seen,
      s.step.1 = (Standing.proceed t text ⟨tc, seen⟩).1 ∧
        s.step.2.StandsAt At t (Standing.proceed t text ⟨tc, seen⟩).2 := by
  obtain ⟨htable, hfin, seen, hat⟩ := h
  have hstands : s.StandsAt At t (some ⟨tc, seen⟩) := ⟨htable, hfin, hat⟩
  have hstep := hstands.step_eq hd hsize
  rw [Standing.step, if_neg (Nat.not_le_of_lt htc)] at hstep
  simp only [ite_self] at hstep
  exact ⟨_, hstep⟩

/-- A step of a stream whose source does not fail returns what a scan of the text reports, and goes
    on from the end of a match. If no pattern matches, it ends the stream if the start state
    accepts, and goes on from where it is otherwise. -/
theorem GoesOn.step_of_lt (hd : ByteSource.Delivers text none At) (hsize : text.length < wordCount)
    (h : s.GoesOn At t tc) (htc : tc < text.length) :
    match Scanner.report text tc (t.find text tc) with
    | .ok m => s.step.1 = some (.ok m) ∧ s.step.2.GoesOn At t m.stop
    | .error u =>
      match t.accept? t.start with
      | none => s.step.1 = some (.error (.unconsumed u)) ∧ s.step.2.GoesOn At t tc
      | some id => s.step.1 = some (.error (.emptyMatch id tc (lineColumn text tc))) ∧
          s.step.2.finished = true := by
  obtain ⟨seen, hstep, hstands⟩ := h.exists_proceed hd hsize htc
  rw [Standing.proceed] at hstep hstands
  cases hreport : Scanner.report text tc (t.find text tc) with
  | ok m =>
    rw [hreport] at hstep hstands
    exact ⟨hstep, hstands.goesOn⟩
  | error u =>
    rw [hreport] at hstep hstands
    cases haccept : t.accept? t.start with
    | none =>
      rw [haccept] at hstep hstands
      exact ⟨hstep, hstands.goesOn⟩
    | some id =>
      rw [haccept] at hstep hstands
      exact ⟨hstep, hstands⟩

/-! ## Runs -/

/-- What a stream is asked for: a step, or to skip some bytes. -/
inductive Request where
  | step
  | skip (n : Nat)
deriving DecidableEq, Repr

/-- What the steps of a stream return, one after the other. -/
def answers (s : Stream σ) : List Request → List (Option (Except ScanError Match))
  | [] => []
  | .step :: rest => s.step.1 :: s.step.2.answers rest
  | .skip n :: rest => (s.skip n).answers rest

/-- What the steps of a stream return once it has ended. -/
def endedAnswers : List Request → List (Option (Except ScanError Match))
  | [] => []
  | .step :: rest => none :: endedAnswers rest
  | .skip _ :: rest => endedAnswers rest

/-- What steps return that are made in a text, from a cursor on. Each step returns what a scan of
    the text returns at the cursor, which then moves to the end of a match; skipping moves it to the
    end of the text at most. If no pattern matches and the start state accepts, the step tells that
    instead, and no later step returns anything. -/
def scanAnswers (t : Table) (text : Bytes) : (tc : Nat) → List Request →
    List (Option (Except ScanError Match))
  | _, [] => []
  | tc, .skip n :: rest => scanAnswers t text (min (tc + n) text.length) rest
  | tc, .step :: rest =>
    match ((Scanner.start t text).step tc).1 with
    | none => none :: scanAnswers t text tc rest
    | some (.ok m) => some (.ok m) :: scanAnswers t text m.stop rest
    | some (.error u) =>
      match t.accept? t.start with
      | none => some (.error (.unconsumed u)) :: scanAnswers t text tc rest
      | some id => some (.error (.emptyMatch id tc (lineColumn text tc))) :: endedAnswers rest

theorem answers_of_finished (h : s.finished = true) (requests : List Request) :
    s.answers requests = endedAnswers requests := by
  induction requests generalizing s with
  | nil => rfl
  | cons request rest ih =>
    cases request with
    | step =>
      rw [answers, step_of_finished h, endedAnswers]
      exact congrArg _ (ih h)
    | skip n => exact ih h

theorem step_start_of_lt (t : Table) (htc : tc < text.length) : ((Scanner.start t text).step tc).1 =
    some (Scanner.report text tc (t.find text tc)) := by
  rw [Scanner.step_start, if_neg (Nat.not_le_of_lt htc)]
  rfl

/-- At the end of the text, steps return nothing, whatever is skipped. -/
theorem scanAnswers_length (t : Table) (text : Bytes) (requests : List Request) :
    scanAnswers t text text.length requests = endedAnswers requests := by
  induction requests with
  | nil => rfl
  | cons request rest ih =>
    cases request with
    | step => simp only [scanAnswers, Scanner.step_start, Nat.le_refl, if_true, endedAnswers, ih]
    | skip n => rw [scanAnswers, Nat.min_eq_right (Nat.le_add_right _ _), ih, endedAnswers]

theorem GoesOn.skip (hd : ByteSource.Delivers text failure? At) (h : s.GoesOn At t tc) (n : Nat) :
    (s.skip n).GoesOn At t (min (tc + n) text.length) := by
  obtain ⟨seen, hat⟩ := h.at_cursor
  exact ⟨h.table_eq, h.finished_eq, _, hd.advance n hat⟩

/-- The steps of a stream over a source that delivers a text and does not fail return what a scan of
    the text returns. -/
theorem GoesOn.answers_eq (hd : ByteSource.Delivers text none At) (hsize : text.length < wordCount)
    (h : s.GoesOn At t tc) (requests : List Request) :
    s.answers requests = scanAnswers t text tc requests := by
  induction requests generalizing s tc with
  | nil => rfl
  | cons request rest ih =>
    cases request with
    | skip n => exact ih (h.skip hd n)
    | step =>
      obtain ⟨seen, hat⟩ := h.at_cursor
      rcases Nat.lt_or_eq_of_le (hd.le_length hat) with htc | rfl
      · have hstep := h.step_of_lt hd hsize htc
        rw [answers, scanAnswers, step_start_of_lt t htc]
        cases hreport : Scanner.report text tc (t.find text tc) with
        | ok m =>
          rw [hreport] at hstep
          rw [hstep.1, ih hstep.2]
        | error u =>
          rw [hreport] at hstep
          -- With no match, a stream ends if the start state accepts, and else reports the bytes.
          cases haccept : t.accept? t.start with
          | none =>
            simp only [haccept] at hstep ⊢
            rw [hstep.1, ih hstep.2]
          | some id =>
            simp only [haccept] at hstep ⊢
            rw [hstep.1, answers_of_finished hstep.2]
      · obtain ⟨hnone, hended⟩ := step_of_end hd hat h.finished_eq
        rw [scanAnswers_length, answers, hnone, answers_of_finished hended]
        rfl

/-- The steps of a stream, with any bytes skipped between them, return what a scan of the text
    returns at the cursors that they come to, whether the source is the text itself or a reader that
    brings it in pieces and with interruptions. The only difference is at a cursor at which no
    pattern matches and the start state accepts. -/
theorem answers_eq_scanAnswers (t : Table) {text : Bytes} (hsize : text.length < wordCount)
    (requests : List Request) :
    (start t (Slice.ofText text)).answers requests = scanAnswers t text 0 requests ∧
      ∀ deliveries, Delivery.contents deliveries = .ok text →
        (start t (Reader.ofDeliveries deliveries)).answers requests =
          scanAnswers t text 0 requests := by
  constructor
  · have hgoes : (start t (Slice.ofText text)).GoesOn (fun tc _ s => Slice.At text tc s) t 0 :=
      ⟨rfl, rfl, false, Slice.at_ofText text⟩
    exact hgoes.answers_eq (Slice.delivers hsize) hsize requests
  · intro deliveries hcontents
    obtain ⟨rfl, hfailure⟩ := Delivery.contents_eq_ok_iff.mp hcontents
    have hat := Reader.at_ofDeliveries deliveries
    rw [hfailure] at hat
    have hgoes : (start t (Reader.ofDeliveries deliveries)).GoesOn
        (Reader.At (Delivery.before deliveries) none) t 0 := ⟨rfl, rfl, false, hat⟩
    exact hgoes.answers_eq (Reader.delivers hsize) hsize requests

/-- A reader is interrupted and brings two words of `a`s with another byte between them in two
    pieces; the other byte is skipped once it was reported. -/
theorem answers_eq_scanAnswers_pieces :
    let row := Row.ofFn fun b => if b = 97 then 2 else Table.error
    let t : Table := ⟨1, #[Table.errorRow, row, row], #[none, none, some 0], true⟩
    let deliveries : List Delivery := [.interrupt, .data [97], .interrupt, .data [97, 98, 97]]
    ([97, 97, 98, 97] : Bytes).length < wordCount ∧
      Delivery.contents deliveries = .ok [97, 97, 98, 97] ∧
      (start t (Reader.ofDeliveries deliveries)).answers [.step, .step, .skip 1, .step, .step] =
        [some (.ok ⟨0, 0, ⟨1, 1⟩, ⟨1, 2⟩, [97, 97]⟩),
          some (.error (.unconsumed ⟨2, 2, ⟨1, 3⟩, ⟨1, 3⟩, [98]⟩)),
          some (.ok ⟨0, 3, ⟨1, 4⟩, ⟨1, 4⟩, [97]⟩), none] := by
  intro row t deliveries
  have hsize : ([97, 97, 98, 97] : Bytes).length < wordCount := by decide
  have hcontents : Delivery.contents deliveries = .ok [97, 97, 98, 97] := rfl
  refine ⟨hsize, hcontents, ?_⟩
  rw [(answers_eq_scanAnswers t hsize _).2 deliveries hcontents]
  decide +kernel

end Stream

end Munch
