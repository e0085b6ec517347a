import Munch.Byte.Basic

set_option autoImplicit false

/-! # Printing bytes as ASCII text

A printable byte stands for itself, except that quotes and backslashes get a backslash; tab, line
feed and carriage return have two-character escapes; every other byte is `\x` and two lower-case
hexadecimal digits. -/

namespace Munch.Byte

/-- The lower-case hexadecimal digit of a number below sixteen. -/
def hexDigit (n : Nat) : Char :=
  Char.ofNat (if n < 10 then 48 + n else 87 + n)

/-- The two lower-case hexadecimal digits of a byte. -/
def hex (b : UInt8) : List Char := [hexDigit (b.toNat / 16), hexDigit (b.toNat % 16)]

/-- The escape of one byte, as a list of ASCII characters. -/
def escape (b : UInt8) : List Char :=
  if b == 9 then ['\\', 't']
  else if b == 10 then ['\\', 'n']
  else if b == 13 then ['\\', 'r']
  else if b == 34 then ['\\', '"']
  else if b == 39 then ['\\', '\'']
  else if b == 92 then ['\\', '\\']
  else if 32 ≤ b ∧ b ≤ 126 then [Char.ofNat b.toNat]
  else '\\' :: 'x' :: hex b

/-- The escape of one byte as a string. -/
def escaped (b : UInt8) : String := String.ofList (escape b)

end Munch.Byte

namespace Munch.Bytes

/-- The escapes of the bytes of a text, one after the other. -/
def escaped (text : Bytes) : String := String.ofList (text.flatMap Byte.escape)

end Munch.Bytes
