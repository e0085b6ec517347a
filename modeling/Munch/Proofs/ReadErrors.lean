import Munch.Proofs.Continuation

set_option autoImplicit false

/-! # Errors of a reader

A reader that fails brings some bytes before that. As long as the table comes to the error state on
one of them, the steps of a stream do not show the failure: they return what they would return if
the input went on in any way. The first step from the end of these bytes, or from a cursor from
which the table uses them up, returns the failure, and no later step returns anything
(`Stream.answers_eq_answersUntilFailure`). So a failure is told once, neither too early, although
the reader is called ahead of the cursor, nor together with a match that might have been longer. -/

namespace Munch

namespace Stream

/-- What the steps of a stream over a text in memory return if a failure is met at an offset, where
    `text` ends: the first step that does not come to the error state before that returns the
    failure instead and ends the stream. -/
def answersUntilFailure (text : Bytes) (e : String) :
    Stream Slice → List Request → List (Option (Except ScanError Match))
  | _, [] => []
  | s, .skip n :: rest => answersUntilFailure text e (s.skip n) rest
  | s, .step :: rest =>
    if s.finished = false ∧ s.table.UsesUp text (ByteSource.tc s.source) then
      some (.error (.io e)) :: endedAnswers rest
    else s.step.1 :: answersUntilFailure text e s.step.2 rest

variable {t : Table} {text more : Bytes} {e : String} {tc : Nat}

/-- From the end of a text, or from a cursor from which the table uses it up, a step tells the
    failure. -/
theorem Standing.step_of_usesUp (hle : tc ≤ text.length) (h : t.UsesUp text tc) (seen : Bool) :
    step t text (some e) ⟨tc, seen⟩ = (some (.error (.io e)), none) := by
  rcases Nat.lt_or_eq_of_le hle with hlt | rfl
  · rw [step, if_neg (Nat.not_le_of_lt hlt)]
    simp only [(Table.fail_find_eq_length_iff hle).mpr h, decide_true, Bool.or_true, if_true]
  · rw [step, if_pos (Nat.le_refl _)]
    rfl

/-- From a cursor from which the table comes to the error state, a step does not tell a failure that
    is not known yet. -/
theorem Standing.step_of_not_usesUp (htc : tc < text.length) (h : ¬ t.UsesUp text tc)
    (failure? : Option String) : step t text failure? ⟨tc, false⟩ = proceed t text ⟨tc, false⟩ := by
  have hfail := mt (Table.fail_find_eq_length_iff htc.le).mp h
  rw [step, if_neg (Nat.not_le_of_lt htc)]
  simp only [decide_eq_false hfail, Bool.or_false, Bool.false_eq_true, if_false]

/-- A stream over a reader that brings a text and then fails, and one over a text that goes on after
    that: they have the same cursor, as far as the reader has bytes, and the end of these was not
    seen before the cursor came there, or both have ended. -/
inductive UntilFailure (t : Table) (text more : Bytes) (e : String) (s : Stream Reader)
    (s' : Stream Slice) : Prop
  | ended (h : s.finished = true) (h' : s'.finished = true) : UntilFailure t text more e s s'
  | goesOn {tc : Nat} {seen : Bool}
      (h : s.StandsAt (Reader.At text (some e)) t (some ⟨min tc text.length, seen⟩))
      (h' : s'.GoesOn (fun tc _ s => Slice.At (text ++ more) tc s) t tc)
      (hseen : seen = true → text.length ≤ tc) : UntilFailure t text more e s s'

theorem UntilFailure.atStart (t : Table) {deliveries : List Delivery}
    (hfailure : Delivery.failure? deliveries = some e) (more : Bytes) :
    UntilFailure t (Delivery.before deliveries) more e (start t (Reader.ofDeliveries deliveries))
      (start t (Slice.ofText (Delivery.before deliveries ++ more))) := by
  have hat := Reader.at_ofDeliveries deliveries
  rw [hfailure, ← Nat.zero_min (Delivery.before deliveries).length] at hat
  exact .goesOn ⟨rfl, rfl, hat⟩ ⟨rfl, rfl, false, Slice.at_ofText _⟩ nofun

section

variable {s : Stream Reader} {s' : Stream Slice} (hsize : (text ++ more).length < wordCount)

include hsize

theorem UntilFailure.skip (h : UntilFailure t text more e s s') (n : Nat) :
    UntilFailure t text more e (s.skip n) (s'.skip n) := by
  have hlength : text.length ≤ (text ++ more).length := by simp
  cases h with
  | ended h h' => exact .ended h h'
  | @goesOn tc seen h h' hseen =>
    have hnext := h.skip (Reader.delivers (Nat.lt_of_le_of_lt hlength hsize)) n
    have hmin :
        min (min tc text.length + n) text.length =
          min (min (tc + n) (text ++ more).length) text.length := by
      omega
    rw [hmin] at hnext
    refine .goesOn hnext (h'.skip (Slice.delivers hsize) n) fun hor => ?_
    rw [Bool.or_eq_true, decide_eq_true_iff] at hor
    rcases hor with hor | hle
    · have hle := hseen hor
      omega
    · omega

/-- A step from a cursor from which the table uses up the bytes of the reader returns the failure;
    any other step returns the same over the reader as over the text that goes on. -/
theorem UntilFailure.step (h : UntilFailure t text more e s s') :
    if s'.finished = false ∧ s'.table.UsesUp text (ByteSource.tc s'.source) then
      s.step.1 = some (.error (.io e)) ∧ s.step.2.finished = true
    else s.step.1 = s'.step.1 ∧ UntilFailure t text more e s.step.2 s'.step.2 := by
  have hlength : text.length ≤ (text ++ more).length := by simp
  have hsize' : text.length < wordCount := Nat.lt_of_le_of_lt hlength hsize
  cases h with
  | ended h h' =>
    rw [if_neg (by simp [h']), step_of_finished h, step_of_finished h']
    exact ⟨rfl, .ended h h'⟩
  | @goesOn tc seen h h' hseen =>
    obtain ⟨hstep, hstands⟩ := h.step_eq (Reader.delivers hsize') hsize'
    obtain ⟨rfl, hfin', _, hat'⟩ := id h'
    rw [show ByteSource.tc s'.source = tc from hat'.offset_eq hsize]
    split
    · next huses =>
      have hall : s'.table.UsesUp text (min tc text.length) := by
        intro stop hstop hlt
        have hmin : min tc text.length = tc := by omega
        rw [hmin] at hlt ⊢
        exact huses.2 stop hstop hlt
      rw [Standing.step_of_usesUp (Nat.min_le_right _ _) hall] at hstep hstands
      exact ⟨hstep, hstands⟩
    · next huses =>
      have hnot : ¬ s'.table.UsesUp text tc := fun hall => huses ⟨hfin', hall⟩
      have htc : tc < text.length := by
        by_contra hle
        exact hnot fun stop hstop hlt => absurd hlt (by omega)
      have hfail := mt (Table.fail_find_eq_length_iff htc.le).mp hnot
      obtain ⟨_, hfail', _⟩ := s'.table.find_bounds htc.le
      -- The reader was not asked for anything behind its last byte, so it does not know of its
      -- failure yet.
      have hfalse : seen = false :=
        Bool.eq_false_iff.mpr fun htrue => Nat.not_le_of_lt htc (hseen htrue)
      obtain ⟨seen'', hstep', hstands'⟩ :=
        h'.exists_proceed (Slice.delivers hsize) hsize (Nat.lt_of_lt_of_le htc hlength)
      rw [Nat.min_eq_left htc.le, hfalse, Standing.step_of_not_usesUp htc hnot] at hstep hstands
      rw [Standing.proceed_append more seen'' htc.le (by omega)] at hstep' hstands'
      rcases Standing.proceed_cases s'.table htc.le with ⟨r, hproceed⟩ | ⟨r, next, hnext, hproceed⟩
      · rw [hproceed] at hstep hstands hstep' hstands'
        exact ⟨hstep.trans hstep'.symm, .ended hstands hstands'⟩
      · rw [hproceed] at hstep hstands hstep' hstands'
        rw [← Nat.min_eq_left (show next ≤ text.length by omega)] at hstands
        exact ⟨hstep.trans hstep'.symm, .goesOn hstands hstands'.goesOn fun h => nomatch h⟩

theorem UntilFailure.answers_eq (h : UntilFailure t text more e s s') (requests : List Request) :
    s.answers requests = answersUntilFailure text e s' requests := by
  induction requests generalizing s s' with
  | nil => rfl
  | cons request rest ih =>
    cases request with
    | skip n => exact ih (h.skip hsize n)
    | step =>
      have hstep := h.step hsize
      rw [answers, answersUntilFailure]
      split
      · next huses =>
        rw [if_pos huses] at hstep
        rw [hstep.1, answers_of_finished hstep.2]
      · next huses =>
        rw [if_neg huses] at hstep
        rw [hstep.1, ih hstep.2]

end

/-- Over a reader that brings the bytes of a text in any pieces, with any interruptions, and then
    fails, the steps of a stream return what they return over a text in memory that starts with
    these bytes and goes on in any way, up to the first step that starts at their end or uses them
    up. That step returns the failure, and no later step returns anything. -/
theorem answers_eq_answersUntilFailure (t : Table) {deliveries : List Delivery} {e : String}
    (hfailure : Delivery.failure? deliveries = some e) (more : Bytes)
    (hsize : (Delivery.before deliveries ++ more).length < wordCount) (requests : List Request) :
    (start t (Reader.ofDeliveries deliveries)).answers requests =
      answersUntilFailure (Delivery.before deliveries) e
        (start t (Slice.ofText (Delivery.before deliveries ++ more))) requests :=
  (UntilFailure.atStart t hfailure more).answers_eq hsize requests

/-- A reader is interrupted, brings words of `a`s with another byte between them, and fails within
    the second word, which could have gone on. -/
theorem answers_eq_answersUntilFailure_within :
    let row := Row.ofFn fun b => if b = 97 then 2 else Table.error
    let t : Table := ⟨1, #[Table.errorRow, row, row], #[none, none, some 0], true⟩
    let deliveries : List Delivery :=
  [.data [97], .interrupt, .data [97, 98, 97], .fail "gone", .data [97]]
    Delivery.failure? deliveries = some "gone" ∧
      (Delivery.before deliveries ++ [97, 98]).length < wordCount ∧
      (start t (Reader.ofDeliveries deliveries)).answers [.step, .step, .skip 1, .step, .step] =
        [some (.ok ⟨0, 0, ⟨1, 1⟩, ⟨1, 2⟩, [97, 97]⟩),
          some (.error (.unconsumed ⟨2, 2, ⟨1, 3⟩, ⟨1, 3⟩, [98]⟩)),
          some (.error (.io "gone")), none] := by
  intro row t deliveries
  have hfailure : Delivery.failure? deliveries = some "gone" := rfl
  have hsize : (Delivery.before deliveries ++ [97, 98]).length < wordCount := by decide
  refine ⟨hfailure, hsize, ?_⟩
  rw [answers_eq_answersUntilFailure t hfailure [97, 98] hsize]
  decide +kernel

end Stream

end Munch
