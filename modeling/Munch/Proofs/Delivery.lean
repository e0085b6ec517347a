import Munch.Proofs.LineColumn
import Munch.Source.Reader
import Munch.Source.Slice

set_option autoImplicit false

/-! # Sources deliver a text

What can be seen of a source is a text with a cursor in it, whatever the source keeps in memory and
however its bytes arrive (`ByteSource.Delivers`): looking ahead shows the bytes after the cursor,
and a source that fails remembers its failure from the moment at which something was asked for that
lies behind the last byte. A text in memory delivers itself (`Slice.delivers`). A reader delivers
what its calls bring (`Reader.delivers`), whether they bring it in few pieces or many, and with
interruptions between them. -/

namespace Munch

/-- A source delivers a text and then ends, or fails. `At tc seen s` says that the cursor of `s` is
    at `tc`, and whether something behind the last byte was asked for, which the source knows from
    then on. -/
structure ByteSource.Delivers {σ : Type} [ByteSource σ] (text : Bytes) (failure? : Option String)
    (At : Nat → Bool → σ → Prop) : Prop where
  le_length : ∀ {tc seen s}, At tc seen s → tc ≤ text.length
  current : ∀ {tc seen s}, At tc seen s →
    (current s).1 = (text[tc]?.map fun b => ⟨b, tc, (Tracker.along text tc).position⟩) ∧
      At tc (seen || decide (text.length ≤ tc)) (current s).2
  peek : ∀ {tc seen s k}, At tc seen s → tc + k < wordCount →
    (peek s k).1 = text[tc + k]? ∧ At tc (seen || decide (text.length ≤ tc + k)) (peek s k).2
  advance : ∀ {tc seen s} (n : Nat), At tc seen s →
    At (min (tc + n) text.length) (seen || decide (text.length ≤ tc + n)) (advance s n).2
  error?_eq : ∀ {tc seen s}, At tc seen s → error? s = if seen then failure? else none
  takeError_eq : ∀ {tc seen s}, At tc seen s → (takeError s).1 = error? s
  tc_eq : ∀ {cursor seen s}, At cursor seen s → tc s = cursor
  record : ∀ {tc seen s} (e : Event), At tc seen s → At tc seen (record s e)
  length_le_reach : ∀ {tc seen s}, At tc seen s → text.length ≤ tc + reach s

/-! ## Texts in memory -/

namespace Slice

/-- A text in memory, with its cursor at an offset. -/
structure At (text : Bytes) (tc : Nat) (s : Slice) : Prop where
  text_eq : s.text = text
  tracker_eq : s.tracker = .along text tc
  le_length : tc ≤ text.length

variable {text : Bytes} {tc : Nat} {s : Slice}

theorem at_ofText (text : Bytes) : At text 0 (ofText text) := ⟨rfl, rfl, Nat.zero_le _⟩

theorem At.offset_eq (h : At text tc s) (hsize : text.length < wordCount) :
    s.tracker.offset = tc := by
  rw [h.tracker_eq, Tracker.offset_along h.le_length (Nat.lt_of_le_of_lt h.le_length hsize)]

/-- What is passed by moving the cursor forward is what lies between its places. -/
theorem slice_add_eq_slice_min (text : Bytes) (tc n : Nat) :
    text.slice tc (tc + n) = text.slice tc (min (tc + n) text.length) := by
  rw [Bytes.slice, Bytes.slice, List.take_eq_take_iff, List.length_drop]
  omega

theorem At.advance (h : At text tc s) (hsize : text.length < wordCount) (n : Nat) :
    At text (min (tc + n) text.length) (s.advance n).2 where
  text_eq := h.text_eq
  tracker_eq := by
    have hle := h.le_length
    show s.tracker.advanceAll (s.text.slice s.tracker.offset (s.tracker.offset + n)) = _
    rw [h.offset_eq hsize, h.text_eq, slice_add_eq_slice_min, h.tracker_eq,
      Tracker.advanceAll_slice (by omega)]
  le_length := Nat.min_le_right _ _

/-- A text in memory delivers itself. -/
theorem delivers (hsize : text.length < wordCount) :
    ByteSource.Delivers text none fun tc _ (s : Slice) => At text tc s where
  le_length h := h.le_length
  current {tc seen s} h := by
    refine ⟨?_, h.text_eq, h.tracker_eq, h.le_length⟩
    show (s.text[s.tracker.offset]?).map _ = _
    rw [h.offset_eq hsize, h.text_eq, h.tracker_eq]
  peek {tc seen s k} h hk := by
    refine ⟨?_, h.text_eq, h.tracker_eq, h.le_length⟩
    show s.text[addWord s.tracker.offset k]? = _
    rw [h.offset_eq hsize, h.text_eq, addWord_of_lt hk]
  advance n h := h.advance hsize n
  error?_eq _ := (ite_self none).symm
  takeError_eq _ := rfl
  tc_eq h := h.offset_eq hsize
  record _ h := ⟨h.text_eq, h.tracker_eq, h.le_length⟩
  length_le_reach {tc seen s} h := by
    show _ ≤ tc + (s.text.length - s.tracker.offset)
    rw [h.offset_eq hsize, h.text_eq]
    omega

end Slice

/-! ## Deliveries -/

namespace Delivery

/-- The bytes that deliveries bring before the input ends or fails. -/
def before : List Delivery → Bytes
  | [] | .stop :: _ | .data [] :: _ | .fail _ :: _ => []
  | .interrupt :: rest => before rest
  | .data (b :: bytes) :: rest => b :: bytes ++ before rest

/-- The failure with which the input ends. -/
def failure? : List Delivery → Option String
  | [] | .stop :: _ | .data [] :: _ => none
  | .fail text :: _ => some text
  | .interrupt :: rest => failure? rest
  | .data (_ :: _) :: rest => failure? rest

/-- Deliveries bring a text if they do not fail. -/
theorem contents_eq (ds : List Delivery) : contents ds =
    match failure? ds with
    | none => .ok (before ds)
    | some e => .error e := by
  fun_induction contents ds with
  | case1 | case2 | case3 => rfl
  | case4 text rest => rfl
  | case5 rest ih => exact ih
  | case6 b bytes rest ih =>
    rw [ih, failure?, before]
    cases failure? rest <;> rfl

theorem contents_eq_ok_iff {ds : List Delivery} {text : Bytes} :
    contents ds = .ok text ↔ before ds = text ∧ failure? ds = none := by
  rw [contents_eq]
  cases failure? ds <;> simp

/-- A call leaves the bytes that it does not bring. -/
theorem before_afterChunk (bytes : Bytes) (rest : List Delivery) :
    before (afterChunk bytes rest) = bytes.drop chunkSize ++ before rest := by
  unfold afterChunk
  split
  · next h => rw [h, List.nil_append]
  · next b more h => rw [h, before]

theorem failure?_afterChunk (bytes : Bytes) (rest : List Delivery) :
    failure? (afterChunk bytes rest) = failure? rest := by
  unfold afterChunk
  split <;> rfl

theorem length_before_le_total (ds : List Delivery) : (before ds).length ≤ total ds := by
  fun_induction before ds with
  | case1 | case2 | case3 | case4 => exact Nat.zero_le _
  | case5 rest ih => exact ih
  | case6 b bytes rest ih =>
    rw [List.length_append, total]
    exact Nat.add_le_add_left ih _

end Delivery

/-! ## Readers -/

namespace Reader

open Delivery

/-- A reader with its cursor at an offset of a text. Until its end is seen, the buffer and the
    deliveries bring the rest of the text; then the buffer holds it. -/
structure At (text : Bytes) (failure? : Option String) (tc : Nat) (seen : Bool) (r : Reader) :
    Prop where
  le_length : tc ≤ text.length
  tracker_eq : r.tracker = .along text tc
  ended_eq : r.ended = seen
  rest_eq : r.buffer ++ (if seen then [] else before r.deliveries) = text.drop tc
  failure?_eq : seen = false → Delivery.failure? r.deliveries = failure?
  error?_eq : r.error? = if seen then failure? else none

variable {text : Bytes} {failure? : Option String} {tc k : Nat} {seen : Bool} {r : Reader}

theorem at_ofDeliveries (ds : List Delivery) :
    At (before ds) (Delivery.failure? ds) 0 false (ofDeliveries ds) :=
  ⟨Nat.zero_le _, rfl, rfl, rfl, fun _ => rfl, rfl⟩

/-- A reader that was not called yet, and does not fail, is at the start of all that its calls
    bring. -/
theorem at_of_contents {ds : List Delivery} (h : Delivery.contents ds = .ok text) :
    At text none 0 false (ofDeliveries ds) := by
  obtain ⟨rfl, hfailure⟩ := Delivery.contents_eq_ok_iff.mp h
  exact hfailure ▸ at_ofDeliveries ds

theorem At.length_buffer_le (h : At text failure? tc seen r) :
    r.buffer.length ≤ text.length - tc := by
  have hrest := congrArg List.length h.rest_eq
  rw [List.length_append, List.length_drop] at hrest
  omega

theorem At.started (h : At text failure? tc seen r) (started : Bool) :
    At text failure? tc seen { r with started } :=
  ⟨h.le_length, h.tracker_eq, h.ended_eq, h.rest_eq, h.failure?_eq, h.error?_eq⟩

/-- If what is asked for lies before the last byte, asking for it does not show the end. -/
theorem At.seen_of_lt (h : At text failure? tc seen r) (hk : k < r.buffer.length) :
    (seen || decide (text.length ≤ tc + k)) = seen := by
  have hlength := h.length_buffer_le
  have hlt : ¬ text.length ≤ tc + k := by omega
  rw [decide_eq_false hlt, Bool.or_false]

/-- While the reader is called, its end was not seen, and the buffer does not reach far enough. -/
theorem At.of_not_done (h : At text failure? tc seen r)
    (hdone : ¬ (decide (k < r.buffer.length) || r.ended) = true) :
    seen = false ∧ r.buffer.length ≤ k := by
  rw [Bool.or_eq_true, decide_eq_true_iff, not_or, h.ended_eq, Nat.not_lt,
    Bool.not_eq_true] at hdone
  exact hdone.symm

/-- A call that ends the input shows the end, and leaves all that is left of the text in the
    buffer. -/
theorem At.ends (h : At text failure? tc seen r)
    (hdone : ¬ (decide (k < r.buffer.length) || r.ended) = true)
    (hbefore : before r.deliveries = []) {r' : Reader} (hbuffer : r'.buffer = r.buffer)
    (htracker : r'.tracker = r.tracker) (hended : r'.ended = true)
    (herror : r.error? = none → r'.error? = Delivery.failure? r.deliveries) :
    At text failure? tc (seen || decide (text.length ≤ tc + k)) r' := by
  obtain ⟨rfl, hk⟩ := h.of_not_done hdone
  have hrest : r.buffer = text.drop tc := by simpa [hbefore] using h.rest_eq
  have hlength := congrArg List.length hrest
  rw [List.length_drop] at hlength
  have hle : text.length ≤ tc + k := by omega
  rw [decide_eq_true hle, Bool.or_true]
  refine ⟨h.le_length, htracker.trans h.tracker_eq, hended, ?_, fun hfalse => ?_, ?_⟩
  · rw [if_pos rfl, List.append_nil, hbuffer, hrest]
  · cases hfalse
  · exact (herror h.error?_eq).trans (h.failure?_eq rfl)

/-- Calling the reader leaves its cursor where it is. -/
theorem At.fillFrom (h : At text failure? tc seen r) :
    At text failure? tc (seen || decide (text.length ≤ tc + k)) (r.fillFrom k) := by
  fun_induction Reader.fillFrom r k generalizing seen with
  | case1 r hdone =>
    rw [Bool.or_eq_true, decide_eq_true_iff] at hdone
    rcases hdone with hlt | hended
    · rwa [h.seen_of_lt hlt]
    · obtain rfl : true = seen := hended.symm.trans h.ended_eq
      rwa [Bool.true_or]
  | case2 r hdone hds =>
    exact h.ends hdone (by rw [hds, before]) rfl rfl rfl fun he => by rw [hds]; exact he
  | case3 r hdone rest hds =>
    exact h.ends hdone (by rw [hds, before]) rfl rfl rfl fun he => by rw [hds]; exact he
  | case4 r hdone b bytes rest hds ih =>
    obtain ⟨rfl, _⟩ := h.of_not_done hdone
    have hrest := h.rest_eq
    have hfailure := h.failure?_eq rfl
    rw [hds] at hrest hfailure
    refine ih ⟨h.le_length, h.tracker_eq, h.ended_eq, ?_, fun _ => ?_, h.error?_eq⟩
    -- What the call brings and what it leaves are the bytes of the delivery.
    · show (r.buffer ++ (b :: bytes).take chunkSize) ++ before (afterChunk (b :: bytes) rest) = _
      rw [before_afterChunk, List.append_assoc, ← List.append_assoc ((b :: bytes).take chunkSize),
        List.take_append_drop, ← hrest]
      rfl
    · exact (failure?_afterChunk (b :: bytes) rest).trans hfailure
  | case5 r hdone text rest hds =>
    exact h.ends hdone (by rw [hds, before]) rfl rfl rfl fun _ => by rw [hds]; rfl
  | case6 r hdone rest hds ih =>
    obtain ⟨rfl, _⟩ := h.of_not_done hdone
    have hrest := h.rest_eq
    have hfailure := h.failure?_eq rfl
    rw [hds] at hrest hfailure
    exact ih ⟨h.le_length, h.tracker_eq, h.ended_eq, hrest, fun _ => hfailure, h.error?_eq⟩
  | case7 r hdone rest hds =>
    exact h.ends hdone (by rw [hds, before]) rfl rfl rfl fun he => by rw [hds]; exact he

/-- After the reader was called, it has ended or the buffer reaches far enough. -/
theorem lt_length_fillFrom (r : Reader) (k : Nat) :
    (r.fillFrom k).ended = false → k < (r.fillFrom k).buffer.length := by
  fun_induction Reader.fillFrom r k with
  | case1 r hdone =>
    intro hended
    simpa [hended] using hdone
  | case4 r hdone b bytes rest hds ih => exact ih
  | case6 r hdone rest hds ih => exact ih
  | case2 | case3 | case5 | case7 =>
    intro hended
    cases hended

theorem At.fill (h : At text failure? tc seen r) :
    At text failure? tc (seen || decide (text.length ≤ tc + k)) (r.fill k) :=
  (h.started true).fillFrom

/-- Once the reader was called for a byte, the buffer shows it. -/
theorem At.getElem?_fill (h : At text failure? tc seen r) :
    (r.fill k).buffer[k]? = text[tc + k]? := by
  have hfill := h.fill (k := k)
  rw [← List.getElem?_drop, ← hfill.rest_eq]
  cases hended : (r.fill k).ended with
  | true =>
    have hseen := hfill.ended_eq.symm.trans hended
    rw [hseen, if_pos rfl, List.append_nil]
  | false =>
    have hlt : k < (r.fill k).buffer.length := lt_length_fillFrom _ k hended
    rw [List.getElem?_append_left hlt]

theorem At.offset_eq (h : At text failure? tc seen r) (hsize : text.length < wordCount) :
    r.tracker.offset = tc := by
  rw [h.tracker_eq, Tracker.offset_along h.le_length (Nat.lt_of_le_of_lt h.le_length hsize)]

/-- Moving the cursor past one byte that is there. -/
theorem At.tail (h : At text failure? tc seen r) {b : UInt8} {rest : Bytes}
    (hbuffer : r.buffer = b :: rest) :
    At text failure? (tc + 1) seen { r with buffer := rest, tracker := r.tracker.advance b } := by
  have hrest := h.rest_eq
  rw [hbuffer, List.cons_append] at hrest
  have hlt : tc < text.length := by
    have hlength := congrArg List.length hrest
    rw [List.length_cons, List.length_drop] at hlength
    omega
  rw [List.drop_eq_getElem_cons hlt] at hrest
  obtain ⟨hb, hrest⟩ := List.cons.inj hrest
  refine ⟨hlt, ?_, h.ended_eq, hrest, h.failure?_eq, h.error?_eq⟩
  have hone : text.slice tc (tc + 1) = [b] := by
    rw [Bytes.slice, Nat.add_sub_cancel_left, List.drop_eq_getElem_cons hlt, hb]
    rfl
  rw [← Tracker.advanceAll_slice (Nat.le_succ tc), hone, h.tracker_eq]
  rfl

/-- Moving the cursor past bytes stops at the end, which is seen if more bytes are asked for than
    there are. -/
theorem At.pass (h : At text failure? tc seen r) (n : Nat) :
    At text failure? (min (tc + n) text.length)
    (seen || decide (text.length < tc + n)) (r.pass n) := by
  induction n generalizing tc seen r with
  | zero =>
    have hle := h.le_length
    rw [Nat.add_zero, Nat.min_eq_left hle, decide_eq_false (Nat.not_lt_of_le hle), Bool.or_false]
    exact h
  | succ n ih =>
    have hfill := h.fill (k := 0)
    have hget := h.getElem?_fill (k := 0)
    have hle := h.le_length
    rw [Nat.add_zero] at hget hfill
    rw [Reader.pass]
    split
    · next hbuffer =>
      rw [hbuffer, List.getElem?_nil] at hget
      have hge : text.length ≤ tc := List.getElem?_eq_none_iff.mp hget.symm
      obtain rfl : tc = text.length := Nat.le_antisymm hle hge
      rw [Nat.min_eq_right (Nat.le_add_right _ _)]
      rw [decide_eq_true (Nat.le_refl _)] at hfill
      rwa [decide_eq_true (by omega)]
    · next b rest hbuffer =>
      rw [hbuffer, List.getElem?_cons_zero] at hget
      have hlt : tc < text.length := (List.getElem?_eq_some_iff.mp hget.symm).1
      rw [decide_eq_false (Nat.not_le_of_lt hlt), Bool.or_false] at hfill
      have hpass := ih (hfill.tail hbuffer)
      rw [Nat.add_right_comm, Nat.add_assoc] at hpass
      exact hpass

theorem At.advance (h : At text failure? tc seen r) (n : Nat) :
    At text failure? (min (tc + n) text.length) (seen || decide (text.length ≤ tc + n))
      (r.advance n).2 := by
  have hfill := (h.pass n).fill (k := 0)
  have hseen : (seen || decide (text.length < tc + n) ||
      decide (text.length ≤ min (tc + n) text.length + 0)) =
        (seen || decide (text.length ≤ tc + n)) := by
    rw [Bool.or_assoc]
    congr 1
    rw [← Bool.decide_or, decide_eq_decide]
    omega
  rwa [hseen] at hfill

/-- A reader delivers what its calls bring before its input ends or fails. -/
theorem delivers (hsize : text.length < wordCount) :
    ByteSource.Delivers text failure? (At text failure?) where
  le_length h := h.le_length
  current {tc seen r} h := by
    have hfill := h.fill (k := 0)
    refine ⟨?_, hfill⟩
    show ((r.fill 0).buffer.head?.map _) = _
    rw [List.head?_eq_getElem?, h.getElem?_fill, Nat.add_zero,
      hfill.offset_eq hsize, hfill.tracker_eq]
  peek h _ := ⟨h.getElem?_fill, h.fill⟩
  advance n h := h.advance n
  error?_eq h := h.error?_eq
  takeError_eq _ := rfl
  tc_eq h := h.offset_eq hsize
  record _ h := ⟨h.le_length, h.tracker_eq, h.ended_eq, h.rest_eq, h.failure?_eq, h.error?_eq⟩
  length_le_reach {tc seen r} h := by
    have hrest := congrArg List.length h.rest_eq
    have hbefore := length_before_le_total r.deliveries
    show _ ≤ tc + (r.buffer.length + total r.deliveries)
    rw [List.length_append, List.length_drop] at hrest
    split at hrest
    · rw [List.length_nil] at hrest
      omega
    · omega

end Reader

end Munch
