import Munch.Byte.Range

set_option autoImplicit false

/-! # Bytes read as UTF-8, with replacements

Every well-formed sequence stands for its character. Where the bytes are not well formed, the
longest part that could still begin a character, or a single byte if there is none, is replaced by
U+FFFD. -/

namespace Munch.Text

/-- The character that stands for bytes that are not well formed. -/
def replacement : Char := Char.ofNat 0xFFFD

/-- A byte that continues a sequence. -/
def continuation : ByteRange := ⟨0x80, 0xBF, by decide⟩

/-- The value bits of the first byte of a sequence of several bytes, and the ranges that its
further bytes must lie in. The narrow ranges after E0, ED, F0 and F4 leave out overlong forms,
surrogates and what is past U+10FFFF. -/
def leadByte (b : UInt8) : Option (Nat × List ByteRange) :=
  if 0xC2 ≤ b ∧ b ≤ 0xDF then some (b.toNat - 0xC0, [continuation])
  else if b = 0xE0 then some (0, [⟨0xA0, 0xBF, by decide⟩, continuation])
  else if b = 0xED then some (0xD, [⟨0x80, 0x9F, by decide⟩, continuation])
  else if 0xE1 ≤ b ∧ b ≤ 0xEF then some (b.toNat - 0xE0, [continuation, continuation])
  else if b = 0xF0 then some (0, [⟨0x90, 0xBF, by decide⟩, continuation, continuation])
  else if 0xF1 ≤ b ∧ b ≤ 0xF3 then
    some (b.toNat - 0xF0, [continuation, continuation, continuation])
  else if b = 0xF4 then some (4, [⟨0x80, 0x8F, by decide⟩, continuation, continuation])
  else none

/-- Read the further bytes of a sequence whose bytes so far have the value `acc`: its value if all
are there, and the text from the first byte that does not belong to the sequence. -/
def readContinuation (acc : Nat) : List ByteRange → Bytes → Option Nat × Bytes
  | [], s => (some acc, s)
  | _ :: _, [] => (none, [])
  | r :: rs, b :: s =>
    if r.contains b then readContinuation (acc * 64 + (b.toNat - 0x80)) rs s else (none, b :: s)

theorem length_readContinuation_le (rs : List ByteRange) : ∀ (acc : Nat) (s : Bytes),
    (readContinuation acc rs s).2.length ≤ s.length := by
  induction rs with
  | nil => simp [readContinuation]
  | cons r rs ih =>
    intro acc s
    cases s with
    | nil => simp [readContinuation]
    | cons b s =>
      simp only [readContinuation]
      split
      · exact Nat.le_succ_of_le (ih _ s)
      · simp

/-- The characters of a text, with replacements where it is not well-formed UTF-8. -/
def decodeLossy : Bytes → List Char
  | [] => []
  | b :: s =>
    if b < 0x80 then Char.ofNat b.toNat :: decodeLossy s
    else
      match leadByte b with
      | none => replacement :: decodeLossy s
      | some (bits, ranges) =>
        ((readContinuation bits ranges s).1.map Char.ofNat).getD replacement ::
          decodeLossy (readContinuation bits ranges s).2
termination_by s => s.length
decreasing_by
  · simp
  · simp
  · exact Nat.lt_succ_of_le (length_readContinuation_le _ _ s)

/-- A text as a string, with replacements where it is not well-formed UTF-8. -/
def ofBytesLossy (text : Bytes) : String := String.ofList (decodeLossy text)

end Munch.Text
