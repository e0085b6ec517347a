import Munch.Source.Basic

set_option autoImplicit false

/-! # Readers as sources

A reader delivers its bytes in pieces, each time it is called; a call can also be interrupted, or
fail. A `Reader` source calls it only as often as it takes to answer, and keeps the bytes after the
cursor that it has. What the calls will bring is given as a list of deliveries, after which the
input has ended. -/

namespace Munch

/-- What calls of a reader bring. -/
inductive Delivery where
  /-- Bytes, in as many calls as it takes; no bytes at all mean that the input has ended. -/
  | data (bytes : Bytes)
  /-- A call that fails. -/
  | fail (text : String)
  /-- A call that is interrupted and can be repeated. -/
  | interrupt
  /-- A call that finds the input ended. -/
  | stop
deriving DecidableEq, Repr

namespace Delivery

/-- The most bytes that a call brings. -/
def chunkSize : Nat := 4096

/-- How many calls a list of deliveries can take, and bytes it can bring, at most. -/
def weight : List Delivery → Nat
  | [] => 0
  | .data bytes :: rest => bytes.length + 1 + weight rest
  | _ :: rest => 1 + weight rest

/-- The bytes of a list of deliveries. -/
def total : List Delivery → Nat
  | [] => 0
  | .data bytes :: rest => bytes.length + total rest
  | _ :: rest => total rest

/-- All the bytes that a list of deliveries brings before the input ends, or the error before
that. -/
def contents : List Delivery → Except String Bytes
  | [] | .stop :: _ | .data [] :: _ => .ok []
  | .fail text :: _ => .error text
  | .interrupt :: rest => contents rest
  | .data (b :: bytes) :: rest => (contents rest).map (b :: bytes ++ ·)

/-- What is left of a delivery of bytes and of those after it when a call has brought what one call
brings. -/
def afterChunk (bytes : Bytes) (rest : List Delivery) : List Delivery :=
  match bytes.drop chunkSize with
  | [] => rest
  | b :: more => .data (b :: more) :: rest

theorem weight_afterChunk_lt (bytes : Bytes) (rest : List Delivery) :
    weight (afterChunk bytes rest) < weight (.data bytes :: rest) := by
  have h : (bytes.drop chunkSize).length = bytes.length - chunkSize := List.length_drop
  unfold afterChunk
  split
  · simp only [weight]
    omega
  · next b more hd =>
    rw [hd] at h
    simp only [weight, chunkSize, List.length_cons] at h ⊢
    omega

end Delivery

/-- A reader, the bytes that it has delivered from the cursor on, and how it ended. -/
structure Reader where
  deliveries : List Delivery
  buffer : Bytes
  tracker : Tracker
  ended : Bool
  error? : Option String
  started : Bool
  journal : List Event
deriving DecidableEq, Repr

namespace Reader

/-- A reader that was not called yet. -/
def ofDeliveries (deliveries : List Delivery) : Reader :=
  ⟨deliveries, [], .start, false, none, false, []⟩

/-- The reader after its end was found. -/
def finish (r : Reader) (rest : List Delivery) : Reader :=
  { r with deliveries := rest, ended := true }

/-- The reader after a call that failed. -/
def failed (r : Reader) (rest : List Delivery) (text : String) : Reader :=
  { r with
    deliveries := rest
    ended := true
    error? := some text
    journal := r.journal ++ [.readError text (r.tracker.offset + r.buffer.length)] }

/-- Call the reader until more than `lookahead` bytes are there or it has ended. -/
def fillFrom (r : Reader) (lookahead : Nat) : Reader :=
  if lookahead < r.buffer.length || r.ended then r
  else
    match _h : r.deliveries with
    | [] => r.finish []
    | .data [] :: rest => r.finish rest
    | .data (b :: bytes) :: rest =>
      fillFrom { r with
        deliveries := Delivery.afterChunk (b :: bytes) rest
        buffer := r.buffer ++ (b :: bytes).take Delivery.chunkSize } lookahead
    | .fail text :: rest => r.failed rest text
    | .interrupt :: rest => fillFrom { r with deliveries := rest } lookahead
    | .stop :: rest => r.finish rest
termination_by Delivery.weight r.deliveries
decreasing_by
  · rw [_h]
    exact Delivery.weight_afterChunk_lt _ _
  · rw [_h]
    simp only [Delivery.weight]
    omega

/-- Call the reader until more than `lookahead` bytes are there or it has ended. -/
def fill (r : Reader) (lookahead : Nat) : Reader := { r with started := true }.fillFrom lookahead

/-- The byte under the cursor. -/
def current (r : Reader) : Option Character × Reader :=
  let r := r.fill 0
  (r.buffer.head?.map fun b => ⟨b, r.tracker.offset, r.tracker.position⟩, r)

/-- The byte so many bytes after the cursor. -/
def peek (r : Reader) (lookahead : Nat) : Option UInt8 × Reader :=
  let r := r.fill lookahead
  (r.buffer[lookahead]?, r)

/-- Move the cursor past at most `n` bytes. -/
def pass (r : Reader) : Nat → Reader
  | 0 => r
  | n + 1 =>
    let r := r.fill 0
    match r.buffer with
    | [] => r
    | b :: rest => { r with buffer := rest, tracker := r.tracker.advance b }.pass n

/-- Move the cursor forward by at most `n` bytes, and say whether there is a byte after them. -/
def advance (r : Reader) (n : Nat) : Bool × Reader :=
  let r := (r.pass n).fill 0
  (!r.buffer.isEmpty, r)

instance : ByteSource Reader where
  current := current
  peek := peek
  advance := advance
  tc r := r.tracker.offset
  started := started
  error? := error?
  takeError r := (r.error?, { r with error? := none })
  reach r := r.buffer.length + Delivery.total r.deliveries
  journal := journal
  record r e := { r with journal := r.journal ++ [e] }

end Reader

end Munch
