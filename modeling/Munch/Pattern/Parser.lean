import Munch.Pattern.Error
import Munch.Regex.Basic

set_option autoImplicit false

/-! # The pattern syntax

```text
regex       := alternation END
alternation := sequence ('|' alternation)?
sequence    := item+
item        := atom ('*' | '+' | '?')*
atom        := char | '(' alternation ')'
char        := BYTE | '\' BYTE | '.' | class
class       := '[' '^'? class_item+ ']'
class_item  := class_byte ('-' class_byte)?
```

Each production is a function of the rest of the pattern. A success returns what is left together
with the proof that it is shorter, which is why the mutual recursion through groups ends. Every
attempt also lists the productions it entered, in order and whether or not it succeeded. -/

namespace Munch.Pattern

/-- A production entered at an offset. -/
structure Visit where
  production : Production
  offset : Nat
deriving DecidableEq, Repr

/-- What a production made of the start of a text, and the text after it. -/
structure Success (α : Type) (s : Bytes) where
  value : α
  rest : Bytes
  shorter : rest.length < s.length

/-- What follows the next byte after a success is shorter still. -/
theorem Success.length_lt_of_rest_eq {α : Type} {s rest : Bytes} {b : UInt8} {x : Success α s}
    (h : x.rest = b :: rest) : rest.length < s.length := by
  have := x.shorter
  rw [h, List.length_cons] at this
  omega

/-- The productions entered on a text, and what came of it. -/
structure Attempt (α : Type) (s : Bytes) where
  visits : List Visit
  result : Except Failure (Success α s)

namespace Attempt

variable {α β : Type} {s t : Bytes}

/-- An attempt that succeeds at once. -/
def done (x : Success α s) : Attempt α s := ⟨[], .ok x⟩

/-- An attempt that fails at once. -/
def fail (f : Fault) : Attempt α s := ⟨[], .error (.ofFault f)⟩

/-- Continue after a success. -/
def andThen (a : Attempt α s) (f : Success α s → Attempt β s) : Attempt β s :=
  match a.result with
  | .error e => ⟨a.visits, .error e⟩
  | .ok x => ⟨a.visits ++ (f x).visits, (f x).result⟩

/-- Transform the value of a success. -/
def map (a : Attempt α s) (f : α → β) : Attempt β s :=
  ⟨a.visits, a.result.map fun x => ⟨f x.value, x.rest, x.shorter⟩⟩

/-- An attempt on the end of a text as an attempt on the text. -/
def weaken (a : Attempt α t) (h : t.length ≤ s.length) : Attempt α s :=
  ⟨a.visits, a.result.map fun x => ⟨x.value, x.rest, Nat.lt_of_lt_of_le x.shorter h⟩⟩

/-- Record the production that an attempt belongs to. -/
def entering (p : Production) (offset : Nat) (a : Attempt α s) : Attempt α s :=
  ⟨⟨p, offset⟩ :: a.visits, a.result⟩

/-- Add the fault of a surrounding production to a failure. -/
def orElse (a : Attempt α s) (f : Fault) : Attempt α s :=
  ⟨a.visits, a.result.mapError (·.within f)⟩

end Attempt

/-! ## Bytes, escapes and classes -/

/-- The digits. -/
def digits : ByteSet := ByteSet.ofPairs [(48, 57)]

/-- The blank bytes: tab through carriage return, and the space. -/
def blanks : ByteSet := ByteSet.ofPairs [(9, 13), (32, 32)]

/-- The bytes of words: digits, letters and the underscore. -/
def wordBytes : ByteSet := ByteSet.ofPairs [(48, 57), (65, 90), (95, 95), (97, 122)]

/-- What a backslash and a byte stand for. -/
inductive Escape where
  | byte (b : UInt8)
  | set (s : ByteSet)

/-- The meaning of a byte after a backslash. -/
def escapeOf (b : UInt8) : Escape :=
  if b == Byte.ofChar 'n' then .byte 10
  else if b == Byte.ofChar 'r' then .byte 13
  else if b == Byte.ofChar 't' then .byte 9
  else if b == Byte.ofChar 'd' then .set digits
  else if b == Byte.ofChar 'D' then .set digits.complement
  else if b == Byte.ofChar 's' then .set blanks
  else if b == Byte.ofChar 'S' then .set blanks.complement
  else if b == Byte.ofChar 'w' then .set wordBytes
  else if b == Byte.ofChar 'W' then .set wordBytes.complement
  else .byte b

/-- The bytes that cannot stand for themselves where a single byte is expected, apart from the
backslash, the dot and the opening bracket, which begin something else. -/
def isOperator (b : UInt8) : Bool :=
  ['|', '+', '*', '?', '(', ')', ']', '^'].any (Byte.ofChar · == b)

/-- The offset at which the rest `s` of a pattern of `n` bytes starts. -/
def offsetIn (n : Nat) (s : Bytes) : Nat := n - s.length

/-- The offset of the byte before the rest `s` of a pattern of `n` bytes. -/
def offsetBefore (n : Nat) (s : Bytes) : Nat := n - (s.length + 1)

/-- Parse an escape, whose backslash is in front of `s`. -/
def escape (n : Nat) (s : Bytes) : Attempt Escape s :=
  Attempt.entering .escape (offsetBefore n s) <|
    match s with
    | [] => .fail ⟨.escape, offsetBefore n [], .danglingBackslash⟩
    | b :: rest => .done ⟨escapeOf b, rest, Nat.lt_succ_self _⟩

/-- Parse a byte or an escape inside a class. -/
def classByte (n : Nat) (s : Bytes) : Attempt Escape s :=
  match s with
  | [] => .fail ⟨.classItem, offsetIn n [], .unterminatedClass⟩
  | b :: rest =>
    if b == Byte.ofChar '\\' then (escape n rest).weaken (Nat.le_succ _)
    else .done ⟨.byte b, rest, Nat.lt_succ_self _⟩

/-- The rest of a class item behind the dash of a range: after a dash that is followed by a byte
other than the closing bracket. -/
def afterDash? : Bytes → Option Bytes
  | d :: b :: rest =>
    if d == Byte.ofChar '-' && b != Byte.ofChar ']' then some (b :: rest) else none
  | _ => none

theorem length_lt_of_afterDash? {s t : Bytes} (h : afterDash? s = some t) :
    t.length < s.length := by
  unfold afterDash? at h
  split at h
  · split at h
    · obtain rfl := Option.some.inj h
      simp
    · simp at h
  · simp at h

/-- Parse a class item, adding its bytes to a set. -/
def classItem (n : Nat) (set : ByteSet) (s : Bytes) : Attempt ByteSet s :=
  Attempt.entering .classItem (offsetIn n s) <|
    (classByte n s).andThen fun x =>
      match x.value with
      | .set more => .done ⟨set.union more, x.rest, x.shorter⟩
      | .byte lo =>
        match h : afterDash? x.rest with
        | none => .done ⟨set.insert lo lo, x.rest, x.shorter⟩
        | some t =>
          ((classByte n t).weaken
            (Nat.le_of_lt (Nat.lt_trans (length_lt_of_afterDash? h) x.shorter))).andThen fun y =>
            match y.value with
            | .set _ => .fail ⟨.classItem, offsetIn n s, .shorthandAsBound⟩
            | .byte hi => .done ⟨set.insert lo hi, y.rest, y.shorter⟩

/-- Parse the items of a class that starts at offset `start`, through the closing bracket. -/
def classItems (n start : Nat) (set : ByteSet) (s : Bytes) : Attempt ByteSet s :=
  ((classItem n set s).orElse ⟨.charClass, start, .invalidClass⟩).andThen fun x =>
    match h : x.rest with
    | [] => .fail ⟨.charClass, start, .unterminatedClass⟩
    | b :: rest =>
      if b == Byte.ofChar ']' then .done ⟨x.value, rest, Success.length_lt_of_rest_eq h⟩
      else (classItems n start x.value x.rest).weaken (Nat.le_of_lt x.shorter)
termination_by s.length
decreasing_by exact x.shorter

/-- Parse a class, whose opening bracket is in front of `s`. -/
def charClass (n : Nat) (s : Bytes) : Attempt Regex s :=
  let negated := s.head? == some (Byte.ofChar '^')
  Attempt.entering .charClass (offsetBefore n s) <|
    ((classItems n (offsetBefore n s) .empty (if negated then s.tail else s)).weaken
      (by split <;> simp)).andThen fun x =>
      match Regex.ofSet? (if negated then x.value.complement else x.value) with
      | none => .fail ⟨.charClass, offsetBefore n s, .classMatchesNothing⟩
      | some r => .done ⟨r, x.rest, x.shorter⟩

/-- Parse a single byte, the wildcard, an escape or a class. -/
def char (n : Nat) (s : Bytes) : Attempt Regex s :=
  Attempt.entering .char (offsetIn n s) <|
    match s with
    | [] => .fail ⟨.char, offsetIn n [], .unexpectedEnd⟩
    | b :: rest =>
      if b == Byte.ofChar '[' then (charClass n rest).weaken (Nat.le_succ _)
      else if b == Byte.ofChar '.' then .done ⟨.any, rest, Nat.lt_succ_self _⟩
      else if b == Byte.ofChar '\\' then
        ((escape n rest).weaken (Nat.le_succ _)).andThen fun x =>
          match x.value with
          | .byte c => .done ⟨.byte c, x.rest, x.shorter⟩
          | .set set =>
            match Regex.ofSet? set with
            | none => .fail ⟨.char, offsetIn n (b :: rest), .escapeMatchesNothing⟩
            | some r => .done ⟨r, x.rest, x.shorter⟩
      else if isOperator b then .fail ⟨.char, offsetIn n (b :: rest), .unexpectedOperator b⟩
      else .done ⟨.byte b, rest, Nat.lt_succ_self _⟩

/-! ## Expressions -/

/-- Apply the repetition operators at the start of a text, the first innermost. -/
def repeats (r : Regex) : Bytes → Regex × Bytes
  | [] => (r, [])
  | b :: rest =>
    if b == Byte.ofChar '*' then repeats (.star r) rest
    else if b == Byte.ofChar '+' then repeats (.plus r) rest
    else if b == Byte.ofChar '?' then repeats (.maybe r) rest
    else (r, b :: rest)

theorem length_repeats_le (s : Bytes) : ∀ r, (repeats r s).2.length ≤ s.length := by
  induction s with
  | nil => simp [repeats]
  | cons b rest ih =>
    intro r
    simp only [repeats]
    split
    · exact Nat.le_succ_of_le (ih _)
    · split
      · exact Nat.le_succ_of_le (ih _)
      · split
        · exact Nat.le_succ_of_le (ih _)
        · simp

/-- Whether a sequence ends before a text: at its end, a bar or a closing parenthesis. -/
def endsSequence : Bytes → Bool
  | [] => true
  | b :: _ => b == Byte.ofChar '|' || b == Byte.ofChar ')'

/-- Several items as one expression; a single item stands for itself. -/
def sequenceOf : List Regex → Regex
  | [r] => r
  | rs => .cat rs

mutual

/-- Parse one or more sequences with bars between them. -/
def alternation (n : Nat) (s : Bytes) : Attempt Regex s :=
  Attempt.entering .alternation (offsetIn n s) <|
    (sequence n s).andThen fun left =>
      match h : left.rest with
      | [] => .done left
      | b :: rest =>
        have hlt : rest.length < s.length := Success.length_lt_of_rest_eq h
        if b == Byte.ofChar '|' then
          ((alternation n rest).weaken (Nat.le_of_lt hlt)).map (.alt left.value)
        else .done left
termination_by (s.length, 5)

/-- Parse a sequence of one or more items. -/
def sequence (n : Nat) (s : Bytes) : Attempt Regex s :=
  Attempt.entering .sequence (offsetIn n s) <|
    if endsSequence s then .fail ⟨.sequence, offsetIn n s, .expectedExpression⟩
    else (items n s).map sequenceOf
termination_by (s.length, 4)

/-- Parse an item and those after it, up to the end of the sequence. -/
def items (n : Nat) (s : Bytes) : Attempt (List Regex) s :=
  (item n s).andThen fun x =>
    if endsSequence x.rest then .done ⟨[x.value], x.rest, x.shorter⟩
    else ((items n x.rest).weaken (Nat.le_of_lt x.shorter)).map (x.value :: ·)
termination_by (s.length, 3)
decreasing_by
  · exact Prod.Lex.right _ (by omega)
  · exact Prod.Lex.left _ _ x.shorter

/-- Parse an atom and the repetition operators after it. -/
def item (n : Nat) (s : Bytes) : Attempt Regex s :=
  Attempt.entering .item (offsetIn n s) <|
    (atom n s).andThen fun x =>
      .done ⟨(repeats x.value x.rest).1, (repeats x.value x.rest).2,
        Nat.lt_of_le_of_lt (length_repeats_le _ _) x.shorter⟩
termination_by (s.length, 2)

/-- Parse a group, or what is not made of other expressions. -/
def atom (n : Nat) (s : Bytes) : Attempt Regex s :=
  Attempt.entering .atom (offsetIn n s) <|
    match s with
    | [] => char n []
    | b :: rest =>
      if b == Byte.ofChar '(' then (group n rest).weaken (Nat.le_succ _)
      else char n (b :: rest)
termination_by (s.length, 1)

/-- Parse a group, whose opening parenthesis is in front of `s`. -/
def group (n : Nat) (s : Bytes) : Attempt Regex s :=
  Attempt.entering .group (offsetBefore n s) <|
    ((alternation n s).orElse ⟨.group, offsetBefore n s, .invalidGroup⟩).andThen fun x =>
      match h : x.rest with
      | [] => .fail ⟨.group, offsetBefore n s, .unclosedGroup⟩
      | b :: rest =>
        if b == Byte.ofChar ')' then
          .done ⟨x.value, rest, Success.length_lt_of_rest_eq h⟩
        else .fail ⟨.group, offsetBefore n s, .unclosedGroup⟩
termination_by (s.length, 6)

end

/-- The productions entered while parsing a pattern, in order, and the complete pattern or why
there is none. -/
def attempt (text : Bytes) : List Visit × Except ParseError Regex :=
  let body := alternation text.length text
  (⟨.regex, 0⟩ :: body.visits,
    match body.result with
    | .error e => .error ⟨text, e.within ⟨.regex, 0, .invalidPattern⟩⟩
    | .ok x =>
      match x.rest with
      | [] => .ok x.value.complete
      | b :: rest =>
        .error ⟨text, .ofFault ⟨.regex, offsetIn text.length (b :: rest), .unconsumed b⟩⟩)

/-- Parse a pattern. -/
def parse (text : Bytes) : Except ParseError Regex := (attempt text).2

/-- The productions entered while parsing a pattern. -/
def visits (text : Bytes) : List Visit := (attempt text).1

end Munch.Pattern
