set_option autoImplicit false

/-! # Bytes and texts

Patterns, inputs and lexemes are byte texts: finite lists of bytes, with no assumption about their
encoding. -/

namespace Munch

/-- A text is a finite sequence of bytes. -/
abbrev Bytes := List UInt8

namespace Byte

/-- The byte of an ASCII character. -/
abbrev ofChar (c : Char) : UInt8 := UInt8.ofNat c.toNat

/-- The line feed, which ends a line. -/
def newline : UInt8 := 10

end Byte

namespace Bytes

/-- The UTF-8 bytes of a string. -/
def ofString (s : String) : Bytes := s.toUTF8.toList

/-- The bytes from offset `start` up to, and not including, offset `stop`. -/
def slice (text : Bytes) (start stop : Nat) : Bytes := (text.drop start).take (stop - start)

end Bytes

end Munch
