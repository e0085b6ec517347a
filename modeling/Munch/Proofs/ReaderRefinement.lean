import Munch.Proofs.Delivery

set_option autoImplicit false

/-! # Readers serve requests as texts in memory do

A source is used by a sequence of requests (`ByteSource.Request`), and what it says of its text are
its answers. A reader and a text in memory are in step (`Reader.Follows`) when their cursors are at
one offset of one text and both or neither were asked for a byte. A request that they serve keeps
them in step and has one answer for both (`Reader.Follows.serve`), and by induction so does a
sequence of requests.

The error of a reader is no answer about its text. It is there from the first request that needs a
byte behind the last one (`ByteSource.needsFrom`) until it is taken, and not again. -/

namespace Munch

namespace ByteSource

/-! ## Requests -/

/-- What a source can be asked for. -/
inductive Request where
  | current
  | peek (lookahead : Nat)
  | advance (n : Nat)
  | tc
  | started
  | atEnd
  | takeError
deriving DecidableEq

namespace Request

/-- How far behind the cursor a request looks, of those that look at bytes. -/
def depth? : Request → Option Nat
  | current | atEnd => some 0
  | peek n | advance n => some n
  | tc | started | takeError => none

/-- The number that is added to the cursor to find the byte to look at. -/
def lookahead : Request → Nat
  | peek k => k
  | _ => 0

/-- What a source can still fail with when a request was served: an error that it has can be
    taken. -/
def leaves (q : Request) (seen : Bool) (failure? : Option String) : Option String :=
  if q = takeError ∧ seen then none else failure?

end Request

/-- What a source says of its text. -/
inductive Answer where
  | character (c? : Option Character)
  | byte (b? : Option UInt8)
  | remains (b : Bool)
  | offset (tc : Nat)
  | started (b : Bool)
  | ended (b : Bool)
deriving DecidableEq

/-- Whether an answer says that the input has ended. -/
def Answer.isEnd : Answer → Bool
  | character c? => c?.isNone
  | byte b? => b?.isNone
  | remains b => !b
  | ended b => b
  | offset _ | started _ => false

variable {σ : Type} [ByteSource σ]

/-- Serve one request. -/
def serve (s : σ) : Request → Option Answer × σ
  | .current => (some (.character (current s).1), (current s).2)
  | .peek k => (some (.byte (peek s k).1), (peek s k).2)
  | .advance n => (some (.remains (advance s n).1), (advance s n).2)
  | .tc => (some (.offset (tc s)), s)
  | .started => (some (.started (started s)), s)
  | .atEnd => (some (.ended (atEnd s).1), (atEnd s).2)
  | .takeError => (none, (takeError s).2)

/-- The source when requests were served. -/
def after (s : σ) (qs : List Request) : σ := qs.foldl (fun s q => (serve s q).2) s

/-- What a source answers to requests. -/
def answers (s : σ) : List Request → List Answer
  | [] => []
  | q :: qs => (serve s q).1.toList ++ answers (serve s q).2 qs

/-- Whether a request needs a byte at an offset or behind it. -/
def needsFrom (offset : Nat) (s : σ) (q : Request) : Bool := q.depth?.any fun k => offset ≤ tc s + k

/-- Whether one of some requests needs a byte at an offset or behind it. -/
def neededFrom (offset : Nat) (s : σ) : List Request → Bool
  | [] => false
  | q :: qs => needsFrom offset s q || neededFrom offset (serve s q).2 qs

/-- The cursor and the look-ahead of each of some requests add up to a word. -/
def Addressable (s : σ) : List Request → Prop
  | [] => True
  | q :: qs => tc s + q.lookahead < wordCount ∧ Addressable (serve s q).2 qs

instance decidableAddressable (s : σ) : (qs : List Request) → Decidable (Addressable s qs)
  | [] => .isTrue trivial
  | q :: qs => @instDecidableAnd _ _ _ (decidableAddressable (serve s q).2 qs)

variable {s : σ} {qs qs' : List Request}

theorem after_append : after s (qs ++ qs') = after (after s qs) qs' := List.foldl_append

theorem addressable_append :
    Addressable s (qs ++ qs') ↔ Addressable s qs ∧ Addressable (after s qs) qs' := by
  induction qs generalizing s with
  | nil => exact (iff_of_eq (true_and _)).symm
  | cons q qs ih =>
    rw [List.cons_append, Addressable, ih, Addressable, and_assoc]
    rfl

end ByteSource

/-! ## Texts in memory -/

namespace Slice

open ByteSource

variable {text : Bytes} {tc : Nat} {s : Slice} {q : Request}

theorem isNone_getElem? (text : Bytes) (i : Nat) : text[i]?.isNone = decide (text.length ≤ i) := by
  rw [Bool.eq_iff_iff, Option.isNone_iff_eq_none, List.getElem?_eq_none_iff, decide_eq_true_iff]

/-- After a move, a byte remains if the move was not to the end. -/
theorem At.advance_fst (h : At text tc s) (hsize : text.length < wordCount) (n : Nat) :
    (s.advance n).1 = decide (tc + n < text.length) := by
  have hoffset := (h.advance hsize n).offset_eq hsize
  show decide ((s.advance n).2.tracker.offset < s.text.length) = _
  rw [hoffset, h.text_eq, decide_eq_decide]
  omega

/-- The answer to a request says that the input has ended if the request needs a byte behind the
    last one. -/
theorem At.isEnd_serve (hsize : text.length < wordCount) (h : At text s.tracker.offset s)
    (hfits : s.tracker.offset + q.lookahead < wordCount) :
    (serve s q).1.any Answer.isEnd = needsFrom text.length s q := by
  have hd := delivers hsize
  have hpeek : ∀ {k}, s.tracker.offset + k < wordCount →
      (ByteSource.peek s k).1.isNone = decide (text.length ≤ s.tracker.offset + k) :=
      fun {k} hk => by
    rw [(@hd.peek s.tracker.offset false s k h hk).1, isNone_getElem?]
  cases q with
  | current =>
    have hcurrent : (ByteSource.current s).1.isNone = decide (text.length ≤ s.tracker.offset) := by
      rw [(@hd.current s.tracker.offset false s h).1, Option.isNone_map, isNone_getElem?]
    exact hcurrent
  | peek k => exact hpeek hfits
  | advance n =>
    have hadvance : (!(s.advance n).1) = decide (text.length ≤ s.tracker.offset + n) := by
      rw [h.advance_fst hsize, ← decide_not, decide_eq_decide, Nat.not_lt]
    exact hadvance
  | atEnd => exact hpeek hfits
  | tc | started | takeError => rfl

end Slice

/-! ## Readers -/

namespace Reader

open ByteSource Delivery

variable {text : Bytes} {failure? : Option String} {tc : Nat} {seen : Bool} {r : Reader} {s : Slice}
  {q : Request} {qs : List Request}

theorem started_fillFrom (r : Reader) (k : Nat) : (r.fillFrom k).started = r.started := by
  fun_induction Reader.fillFrom r k with
  | case1 | case2 | case3 | case5 | case7 => rfl
  | case4 r hdone b bytes rest hds ih => exact ih
  | case6 r hdone rest hds ih => exact ih

theorem started_fill (r : Reader) (k : Nat) : (r.fill k).started = true := started_fillFrom _ k

/-- After a move, a byte remains if the move was not to the end. -/
theorem At.advance_fst (h : At text failure? tc seen r) (n : Nat) :
    (r.advance n).1 = decide (tc + n < text.length) := by
  have hget := (h.pass n).getElem?_fill (k := 0)
  show (!((r.pass n).fill 0).buffer.isEmpty) = _
  cases hbuffer : ((r.pass n).fill 0).buffer with
  | nil =>
    rw [hbuffer, List.getElem?_nil] at hget
    have hge := List.getElem?_eq_none_iff.mp hget.symm
    exact (decide_eq_false (by omega)).symm
  | cons b rest =>
    rw [hbuffer, List.getElem?_cons_zero] at hget
    obtain ⟨hlt, -⟩ := List.getElem?_eq_some_iff.mp hget.symm
    exact (decide_eq_true (by omega)).symm

/-- Once the error was taken, the reader has none and cannot fail again. Before, there is nothing to
    take. -/
theorem At.takeError (h : At text failure? tc seen r) :
    At text (Request.takeError.leaves seen failure?) tc seen { r with error? := none } := by
  refine ⟨h.le_length, h.tracker_eq, h.ended_eq, h.rest_eq, fun hseen => ?_, ?_⟩
  · subst hseen
    exact h.failure?_eq rfl
  · cases seen <;> rfl

/-! ## One request -/

/-- A reader and a text in memory with their cursors at one offset of a text. -/
structure Follows (text : Bytes) (failure? : Option String) (seen : Bool) (r : Reader) (s : Slice) :
    Prop where
  reader : Reader.At text failure? s.tracker.offset seen r
  slice : Slice.At text s.tracker.offset s
  started_eq : r.started = s.started

theorem follows_ofDeliveries (ds : List Delivery) :
    Follows (before ds) (Delivery.failure? ds) false (ofDeliveries ds) (Slice.ofText (before ds)) :=
  ⟨at_ofDeliveries ds, Slice.at_ofText _, rfl⟩

theorem Follows.of_at (hsize : text.length < wordCount) (hr : Reader.At text failure? tc seen r)
    (hs : Slice.At text tc s) (hstarted : r.started = s.started) :
    Follows text failure? seen r s := by
  obtain rfl := hs.offset_eq hsize
  exact ⟨hr, hs, hstarted⟩

/-- A reader that serves a request stays in step with a text in memory, and has the answer of that
    text. -/
theorem Follows.serve (hsize : text.length < wordCount) (h : Follows text failure? seen r s)
    (hfits : s.tracker.offset + q.lookahead < wordCount) :
    (serve r q).1 = (serve s q).1 ∧
      Follows text (q.leaves seen failure?) (seen || needsFrom text.length s q)
      (serve r q).2 (serve s q).2 := by
  have hr : Delivers text failure? (Reader.At text failure?) := delivers hsize
  have hs := Slice.delivers hsize
  -- A reader fills its buffer up to the byte that is asked for; a slice has it there already.
  have hpeek : ∀ {k}, s.tracker.offset + k < wordCount → (r.peek k).1 = (s.peek k).1 ∧
      Follows text failure? (seen || decide (text.length ≤ s.tracker.offset + k))
      (r.peek k).2 (s.peek k).2 :=
    fun {k} hk => by
      obtain ⟨hfst, hat⟩ := hr.peek h.reader hk
      obtain ⟨hfst', hat'⟩ := @hs.peek s.tracker.offset seen s k h.slice hk
      exact ⟨hfst.trans hfst'.symm, .of_at hsize hat hat' (started_fill _ _)⟩
  cases q with
  | current =>
    obtain ⟨hfst, hat⟩ := hr.current h.reader
    obtain ⟨hfst', hat'⟩ := @hs.current s.tracker.offset seen s h.slice
    refine ⟨congrArg (some ∘ Answer.character) (hfst.trans hfst'.symm), ?_⟩
    exact .of_at hsize hat hat' (started_fill _ _)
  | peek k => exact ⟨congrArg (some ∘ Answer.byte) (hpeek hfits).1, (hpeek hfits).2⟩
  | advance n =>
    refine ⟨congrArg (some ∘ Answer.remains) ?_, ?_⟩
    · exact (h.reader.advance_fst n).trans (h.slice.advance_fst hsize n).symm
    · exact .of_at hsize (h.reader.advance n) (h.slice.advance hsize n) (started_fill _ _)
  | tc => exact ⟨congrArg (some ∘ Answer.offset) (hr.tc_eq h.reader), (Bool.or_false seen).symm ▸ h⟩
  | started => exact ⟨congrArg (some ∘ Answer.started) h.started_eq, (Bool.or_false seen).symm ▸ h⟩
  | atEnd => exact ⟨congrArg (some ∘ Answer.ended ∘ Option.isNone) (hpeek hfits).1, (hpeek hfits).2⟩
  | takeError =>
    exact ⟨rfl, (Bool.or_false seen).symm ▸ ⟨h.reader.takeError, h.slice, h.started_eq⟩⟩

/-! ## Sequences of requests -/

/-- A reader that serves requests stays in step with a text in memory, and has the answers of that
    text. What it can still fail with does not change unless it is taken. -/
theorem Follows.run (hsize : text.length < wordCount) (h : Follows text failure? seen r s)
    (hqs : Addressable s qs) :
    answers r qs = answers s qs ∧
      ∃ left?, Follows text left? (seen || neededFrom text.length s qs) (after r qs) (after s qs) ∧
        (failure? = none → left? = none) ∧
        (.takeError ∉ qs ∨ (seen || neededFrom text.length s qs) = false → left? = failure?) := by
  induction qs generalizing failure? seen r s with
  | nil => exact ⟨rfl, failure?, (Bool.or_false seen).symm ▸ h, id, fun _ => rfl⟩
  | cons q qs ih =>
    obtain ⟨hanswer, hnext⟩ := h.serve hsize hqs.1
    obtain ⟨hanswers, left?, hrun, hnone, hkept⟩ := ih hnext hqs.2
    rw [Bool.or_assoc] at hrun hkept
    refine ⟨by rw [answers, answers, hanswer, hanswers], left?, hrun, fun hfailure => hnone ?_, ?_⟩
    · rw [hfailure, Request.leaves, ite_self]
    · rintro (hfree | hunseen)
      · refine (hkept (.inl fun hmem => hfree (List.mem_cons_of_mem q hmem))).trans (if_neg ?_)
        rintro ⟨rfl, -⟩
        exact hfree List.mem_cons_self
      · refine (hkept (.inr hunseen)).trans (if_neg ?_)
        rintro ⟨-, rfl⟩
        cases hunseen

/-- An error that was taken does not come back. -/
theorem Follows.error?_of_taken (hsize : text.length < wordCount)
    (h : Follows text failure? true r s) (hqs : Addressable s qs) (htaken : .takeError ∈ qs) :
    (after r qs).error? = none := by
  obtain ⟨earlier, later, rfl⟩ := List.append_of_mem htaken
  obtain ⟨hearlier, hlater⟩ := addressable_append.mp hqs
  obtain ⟨-, left?, hbefore, -⟩ := h.run hsize hearlier
  obtain ⟨-, htake⟩ := hbefore.serve hsize hlater.1
  obtain ⟨-, left', hafter, hnone, -⟩ := htake.run hsize hlater.2
  obtain rfl : left' = none := hnone rfl
  rw [after_append]
  exact hafter.reader.error?_eq.trans (ite_self none)

/-- Whatever its calls bring before its input ends or fails, a reader answers requests as a text in
    memory with all these bytes does. It has no error before a request needs a byte behind the last
    one. From the first one that does it has the error with which its input fails, until that is
    taken, and never again. A request is answered with the end of the input whenever it needs a byte
    behind the last one. -/
theorem serves_as_slice (ds : List Delivery) (qs : List Request)
    (hsize : (before ds).length < wordCount) (hqs : Addressable (Slice.ofText (before ds)) qs) :
    answers (ofDeliveries ds) qs = answers (Slice.ofText (before ds)) qs ∧
      (neededFrom (before ds).length (Slice.ofText (before ds)) qs = false →
        (after (ofDeliveries ds) qs).error? = none) ∧
      ∀ earlier q later, qs = earlier ++ q :: later →
        (serve (after (ofDeliveries ds) earlier) q).1.any Answer.isEnd =
            needsFrom (before ds).length (after (Slice.ofText (before ds)) earlier) q ∧
          (needsFrom (before ds).length (after (Slice.ofText (before ds)) earlier) q = true →
            (neededFrom (before ds).length (Slice.ofText (before ds)) earlier = false →
                .takeError ∉ later → (after (ofDeliveries ds) qs).error? = Delivery.failure? ds) ∧
              (.takeError ∈ later → (after (ofDeliveries ds) qs).error? = none)) := by
  have hstart := follows_ofDeliveries ds
  obtain ⟨hanswers, left?, hrun, -⟩ := hstart.run hsize hqs
  refine ⟨hanswers, fun hunneeded => ?_, ?_⟩
  · rw [hunneeded] at hrun
    exact hrun.reader.error?_eq
  · rintro earlier q later rfl
    obtain ⟨hearlier, hq, hlater⟩ := addressable_append.mp hqs
    obtain ⟨-, left?, hbefore, -, hkept⟩ := hstart.run hsize hearlier
    obtain ⟨hanswer, hat⟩ := hbefore.serve hsize hq
    refine ⟨by rw [hanswer, hbefore.slice.isEnd_serve hsize hq], fun hneeds => ?_⟩
    rw [hneeds, Bool.or_true] at hat
    rw [after_append]
    refine ⟨fun hunneeded hfree => ?_, hat.error?_of_taken hsize hlater⟩
    -- The request finds the failure, as nothing before it did.
    obtain rfl : left? = _ := hkept (.inr hunneeded)
    obtain ⟨-, left', hafter, -, hkept'⟩ := hat.run hsize hlater
    rw [hkept' (.inl hfree), Bool.true_or] at hafter
    refine hafter.reader.error?_eq.trans ((if_pos rfl).trans (if_neg ?_))
    rw [hunneeded]
    rintro ⟨-, hseen⟩
    cases hseen

/-- A pipe that bursts behind the third byte, which a look-ahead finds while there are bytes left to
    move past. -/
theorem serves_as_slice_of_burst_pipe :
    let ds := [.interrupt, .data [97, 10], .interrupt, .data [98], .fail "pipe burst"]
    let earlier := [.peek 1, .current, .advance 2]
    let later := [.current, .takeError, .advance 4, .atEnd]
    answers (ofDeliveries ds) (earlier ++ .peek 5 :: later) =
        [.byte (some 10), .character (some ⟨97, 0, 1, 1⟩), .remains true, .byte none,
          .character (some ⟨98, 2, 2, 1⟩), .remains false, .ended true] ∧
      (after (ofDeliveries ds) earlier).error? = none ∧
      (after (ofDeliveries ds) (earlier ++ [.peek 5, .current])).error? = some "pipe burst" ∧
      (after (ofDeliveries ds) (earlier ++ .peek 5 :: later)).error? = none := by
  intro ds earlier later
  have hsize : (before ds).length < wordCount := by decide
  obtain ⟨hanswers, -, hplaces⟩ :=
    serves_as_slice ds (earlier ++ .peek 5 :: later) hsize (by decide)
  obtain ⟨-, hunneeded, -⟩ := serves_as_slice ds earlier hsize (by decide)
  obtain ⟨-, -, hplaces'⟩ := serves_as_slice ds (earlier ++ [.peek 5, .current]) hsize (by decide)
  refine ⟨hanswers.trans (by decide), hunneeded (by decide), ?_, ?_⟩
  · exact ((hplaces' earlier (.peek 5) _ rfl).2 (by decide)).1 (by decide) (by decide)
  · exact ((hplaces earlier (.peek 5) later rfl).2 (by decide)).2 (by decide)

end Reader

end Munch
