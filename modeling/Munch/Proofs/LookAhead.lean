import Munch.Proofs.ReadErrors

set_option autoImplicit false

/-! # Looking ahead between steps

An action may look ahead in a source between two steps of a stream. Over a reader whose input just
ends, this changes nothing: the steps return what they return without it, however far it looks. Over
a reader that fails, looking at the end of its bytes or behind it makes the failure known, and the
next step returns it and ends the stream, even where it would have returned a match
(`Stream.replies_eq`). A match is lost in this way (`Stream.replies_ne_answers`); up to such a look
the steps return what they return without it. -/

namespace Munch

namespace Stream

/-- What is done with a stream: a step, skipping some bytes, or a look at the byte so many bytes
    after the cursor. -/
inductive Operation where
  | step
  | skip (n : Nat)
  | look (lookahead : Nat)
deriving DecidableEq, Repr

namespace Operation

/-- An operation other than a look. -/
def request? : Operation → Option Request
  | step => some .step
  | skip n => some (.skip n)
  | look _ => none

end Operation

section

variable {σ : Type} [ByteSource σ]

/-- Look at the byte so many bytes after the cursor. -/
def look (s : Stream σ) (lookahead : Nat) : Stream σ :=
  { s with source := (ByteSource.peek s.source lookahead).2 }

/-- What the steps of a stream return, with looks between them. -/
def replies (s : Stream σ) : List Operation → List (Option (Except ScanError Match))
  | [] => []
  | .step :: rest => s.step.1 :: s.step.2.replies rest
  | .skip n :: rest => (s.skip n).replies rest
  | .look k :: rest => (s.look k).replies rest

/-- What the steps of a stream return without any look, up to the first step after a look at or
    behind the end of `text`: that step returns a failure instead and ends the stream. -/
def repliesUntilSeen (text : Bytes) (e : String) : (seen : Bool) → Stream σ → List Operation →
    List (Option (Except ScanError Match))
  | _, _, [] => []
  | seen, s, .skip n :: rest => repliesUntilSeen text e seen (s.skip n) rest
  | seen, s, .look k :: rest =>
    repliesUntilSeen text e (seen || decide (text.length ≤ ByteSource.tc s.source + k)) s rest
  | seen, s, .step :: rest =>
    if seen = true ∧ s.finished = false then
      some (.error (.io e)) :: endedAnswers (rest.filterMap Operation.request?)
    else s.step.1 :: repliesUntilSeen text e seen s.step.2 rest

end

theorem replies_of_finished {σ : Type} [ByteSource σ] {s : Stream σ} (h : s.finished = true)
    (operations : List Operation) :
    s.replies operations = endedAnswers (operations.filterMap Operation.request?) := by
  induction operations generalizing s with
  | nil => rfl
  | cons operation rest ih =>
    cases operation with
    | step =>
      rw [replies, step_of_finished h, ih h]
      rfl
    | skip n => exact ih h
    | look k => exact ih h

/-- A stream over a reader with looks between its steps, and one without: they stand at the same
    place, but for whether something behind the last byte was looked at, or both have ended. -/
inductive Looked (t : Table) (text : Bytes) (failure? : Option String) (seen : Bool)
    (s s' : Stream Reader) : Prop
  | ended (h : s.finished = true) (h' : s'.finished = true) : Looked t text failure? seen s s'
  | goesOn {tc : Nat} {seen' : Bool}
      (h : s.StandsAt (Reader.At text failure?) t (some ⟨tc, seen' || seen⟩))
      (h' : s'.StandsAt (Reader.At text failure?) t (some ⟨tc, seen'⟩)) :
      Looked t text failure? seen s s'

theorem Looked.atStart (t : Table) (deliveries : List Delivery) :
    Looked t (Delivery.before deliveries) (Delivery.failure? deliveries) false
      (start t (Reader.ofDeliveries deliveries)) (start t (Reader.ofDeliveries deliveries)) :=
  .goesOn ⟨rfl, rfl, Reader.at_ofDeliveries deliveries⟩ ⟨rfl, rfl,
    Reader.at_ofDeliveries deliveries⟩

section

variable {t : Table} {text : Bytes} {failure? : Option String} {seen : Bool} {s s' : Stream Reader}
  (hsize : text.length < wordCount)

include hsize

theorem Looked.skip (h : Looked t text failure? seen s s') (n : Nat) :
    Looked t text failure? seen (s.skip n) (s'.skip n) := by
  cases h with
  | ended h h' => exact .ended h h'
  | @goesOn tc seen' h h' =>
    have hnext := h.skip (Reader.delivers hsize) n
    rw [Bool.or_right_comm] at hnext
    exact .goesOn hnext (h'.skip (Reader.delivers hsize) n)

theorem Looked.look (h : Looked t text failure? seen s s') (k : Nat) :
    Looked t text failure? (seen || decide (text.length ≤ ByteSource.tc s'.source + k))
    (s.look k) s' := by
  cases h with
  | ended h h' => exact .ended h h'
  | @goesOn tc seen' h h' =>
    have htc : ByteSource.tc s'.source = tc := h'.2.2.offset_eq hsize
    have hat : Reader.At text failure? tc _ (s.look k).source := h.2.2.fill
    rw [Bool.or_assoc] at hat
    rw [htc]
    exact .goesOn ⟨h.1, h.2.1, hat⟩ h'

/-- Once the end of a reader that fails was looked at, a step returns the failure and ends the
    stream. -/
theorem Looked.step_of_seen {e : String} (h : Looked t text (some e) true s s')
    (hfin : s'.finished = false) : s.step.1 = some (.error (.io e)) ∧ s.step.2.finished = true := by
  cases h with
  | ended h h' => simp [hfin] at h'
  | @goesOn tc seen' h h' =>
    obtain ⟨hstep, hstands⟩ := h.step_eq (Reader.delivers hsize) hsize
    have heq : Standing.step t text (some e) ⟨tc, seen' || true⟩ =
        (some (.error (.io e)), none) := by
      rw [Standing.step]
      split
      · rfl
      · simp only [Bool.or_true, Bool.true_or, if_true]
    rw [heq] at hstep hstands
    exact ⟨hstep, hstands⟩

/-- A step returns what it returns without the looks if these did not come to the end, or if the
    reader does not fail there. -/
theorem Looked.step (h : Looked t text failure? seen s s')
    (hquiet : seen = true → s'.finished = false → failure? = none) :
    s.step.1 = s'.step.1 ∧ Looked t text failure? seen s.step.2 s'.step.2 := by
  cases h with
  | ended h h' =>
    rw [step_of_finished h, step_of_finished h']
    exact ⟨rfl, .ended h h'⟩
  | @goesOn tc seen' h h' =>
    obtain ⟨hstep, hstands⟩ := h.step_eq (Reader.delivers hsize) hsize
    obtain ⟨hstep', hstands'⟩ := h'.step_eq (Reader.delivers hsize) hsize
    cases seen with
    | false =>
      rw [Bool.or_false] at hstep hstands
      refine ⟨hstep.trans hstep'.symm, ?_⟩
      rcases hnext : (Standing.step t text failure? ⟨tc, seen'⟩).2 with _ | ⟨tc', seen''⟩
      · rw [hnext] at hstands hstands'
        exact .ended hstands hstands'
      · rw [hnext] at hstands'
        rw [hnext, ← Bool.or_false seen''] at hstands
        exact .goesOn hstands hstands'
    | true =>
      -- The input just ends, so a step does not tell whether the end was looked at.
      obtain rfl := hquiet rfl h'.2.1
      rw [Standing.step] at hstep hstands hstep' hstands'
      split at hstep
      · next hend =>
        rw [if_pos hend] at hstands hstep' hstands'
        exact ⟨hstep.trans hstep'.symm, .ended hstands hstands'⟩
      · next htc =>
        rw [if_neg htc] at hstands hstep' hstands'
        simp only [ite_self] at hstep hstands hstep' hstands'
        rcases Standing.proceed_cases t (Nat.le_of_not_le htc) with
          ⟨r, hproceed⟩ | ⟨r, next, _, hproceed⟩
        · rw [hproceed] at hstep hstands hstep' hstands'
          exact ⟨hstep.trans hstep'.symm, .ended hstands hstands'⟩
        · rw [hproceed] at hstep hstands hstep' hstands'
          rw [Bool.or_right_comm] at hstands
          exact ⟨hstep.trans hstep'.symm, .goesOn hstands hstands'⟩

theorem Looked.replies_eq_answers (h : Looked t text none seen s s') (operations : List Operation) :
    s.replies operations = s'.answers (operations.filterMap Operation.request?) := by
  induction operations generalizing s s' seen with
  | nil => rfl
  | cons operation rest ih =>
    cases operation with
    | skip n => exact ih (h.skip hsize n)
    | look k => exact ih (h.look hsize k)
    | step =>
      obtain ⟨hstep, hnext⟩ := h.step hsize fun _ _ => rfl
      show s.step.1 :: _ = s'.step.1 :: _
      rw [hstep, ih hnext]

theorem Looked.replies_eq_repliesUntilSeen {e : String} (h : Looked t text (some e) seen s s')
    (operations : List Operation) :
    s.replies operations = repliesUntilSeen text e seen s' operations := by
  induction operations generalizing s s' seen with
  | nil => rfl
  | cons operation rest ih =>
    cases operation with
    | skip n => exact ih (h.skip hsize n)
    | look k => exact ih (h.look hsize k)
    | step =>
      rw [replies, repliesUntilSeen]
      split
      · next hseen =>
        obtain ⟨rfl, hfin⟩ := hseen
        obtain ⟨hstep, hended⟩ := h.step_of_seen hsize hfin
        rw [hstep, replies_of_finished hended]
      · next hseen =>
        obtain ⟨hstep, hnext⟩ := h.step hsize fun htrue hfin => absurd ⟨htrue, hfin⟩ hseen
        rw [hstep, ih hnext]

end

/-- Looks between the steps of a stream over a reader change nothing if the input just ends. If the
    reader fails, they change nothing until one of them comes to the end of the bytes: the next step
    returns the failure, and ends the stream. -/
theorem replies_eq (t : Table) (deliveries : List Delivery)
    (hsize : (Delivery.before deliveries).length < wordCount) (operations : List Operation) :
    let s := start t (Reader.ofDeliveries deliveries)
    (Delivery.failure? deliveries = none →
      s.replies operations = s.answers (operations.filterMap Operation.request?)) ∧
    ∀ e, Delivery.failure? deliveries = some e →
      s.replies operations =
        repliesUntilSeen (Delivery.before deliveries) e false s operations := by
  intro s
  have hlooked := Looked.atStart t deliveries
  constructor
  · intro hfailure
    rw [hfailure] at hlooked
    exact hlooked.replies_eq_answers hsize operations
  · intro e hfailure
    rw [hfailure] at hlooked
    exact hlooked.replies_eq_repliesUntilSeen hsize operations

/-- A reader brings `a` four times and fails. A look at the last of them changes nothing; after one
    behind it, the next step returns the failure. -/
theorem replies_eq_steps :
    let row := Row.ofFn fun b => if b = 97 then 2 else Table.error
    let t : Table := ⟨1, #[Table.errorRow, row, Table.errorRow], #[none, none, some 0], true⟩
    let deliveries : List Delivery := [.data [97], .interrupt, .data [97, 97, 97], .fail "gone"]
    (Delivery.before deliveries).length < wordCount ∧ Delivery.failure? deliveries = some "gone" ∧
      (start t (Reader.ofDeliveries deliveries)).replies [.look 3, .step, .skip 1,
        .look 2, .step, .step] =
          [some (.ok ⟨0, 0, ⟨1, 1⟩, ⟨1, 1⟩, [97]⟩), some (.error (.io "gone")), none] := by
  intro row t deliveries
  have hsize : (Delivery.before deliveries).length < wordCount := by decide
  have hfailure : Delivery.failure? deliveries = some "gone" := rfl
  refine ⟨hsize, hfailure, ?_⟩
  rw [(replies_eq t deliveries hsize _).2 "gone" hfailure]
  decide +kernel

/-- The sets of positions of the pattern `a` are that of its only leaf and that of its end. -/
theorem found_sets_pattern_a :
    (Table.sets (Labelled.ofRegex (.pattern (.cat [.byte 97, .finish])))).found = [[0], [1]] := by
  generalize hl : Labelled.ofRegex (.pattern (.cat [.byte 97, .finish])) = l
  have hstart : l.start = [0] := by rw [← hl]; decide +kernel
  have hfirst : Table.nextSets l l.follow [0] = [[1]] := by rw [← hl]; decide +kernel
  have hlast : Table.nextSets l l.follow [1] = [] := by rw [← hl]; decide +kernel
  simp [Table.sets, explore, hstart, Exploration.walk, hfirst, hlast,
    Exploration.fresh, Turn.enqueue]

/-- A reader brings `a` twice and fails. The pattern `a` matches the first, and the table comes to
    the error state on the second. If the byte behind them is looked at before the first step, that
    match is lost. -/
theorem replies_ne_answers :
    let t := Table.ofRegex (.pattern (.cat [.byte 97, .finish]))
    let deliveries : List Delivery := [.data [97, 97], .fail "gone"]
    let s := start t (Reader.ofDeliveries deliveries)
    s.answers [.step, .step, .step] =
        [some (.ok ⟨0, 0, ⟨1, 1⟩, ⟨1, 1⟩, [97]⟩), some (.error (.io "gone")), none] ∧
      s.replies [.look 2, .step, .step, .step] = [some (.error (.io "gone")), none, none] := by
  intro t deliveries s
  have hsize : (Delivery.before deliveries ++ []).length < wordCount := by decide
  have hfailure : Delivery.failure? deliveries = some "gone" := rfl
  have hlooked := Looked.atStart t deliveries
  rw [hfailure] at hlooked
  constructor
  · rw [(UntilFailure.atStart t hfailure []).answers_eq hsize]
    simp only [t, Table.ofRegex, Table.ofLabelled, found_sets_pattern_a]
    decide +kernel
  · exact hlooked.replies_eq_repliesUntilSeen hsize _

end Stream

end Munch
