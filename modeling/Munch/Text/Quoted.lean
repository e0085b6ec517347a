import Munch.Text.Printable

set_option autoImplicit false

/-! # Quoted strings

A quoted string can be shown on one line whatever it holds: quotes and backslashes get a
backslash, tab, line feed, carriage return and NUL have two-character escapes, and a character
that is not printable, or that would merge with the one before it, is written as its code point
in hexadecimal between `\u` and braces. -/

namespace Munch.Text

/-- The escape of a character by its code point. -/
def codePointEscape (c : Char) : List Char :=
  '\\' :: 'u' :: '{' :: Nat.toDigits 16 c.toNat ++ ['}']

/-- How a character is written inside quotes. -/
def quoteChar (c : Char) : List Char :=
  match c with
  | '\t' => ['\\', 't']
  | '\n' => ['\\', 'n']
  | '\r' => ['\\', 'r']
  | '"' => ['\\', '"']
  | '\\' => ['\\', '\\']
  | c =>
    if c.toNat = 0 then ['\\', '0']
    else if isPrintable c && !isCombining c then [c]
    else codePointEscape c

/-- A string between quotes, with what cannot stand there escaped. -/
def quote (s : String) : String :=
  String.ofList ('"' :: s.toList.flatMap quoteChar ++ ['"'])

end Munch.Text
