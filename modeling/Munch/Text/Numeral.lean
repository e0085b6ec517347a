set_option autoImplicit false

/-! # Decimal numerals

A numeral is an optional plus sign and one or more decimal digits, whose value must not exceed a
limit. Of two faults the one at the earlier character is reported, and a character that is no digit
before the number growing too large at it. -/

namespace Munch.Text

/-- Why a word is not a numeral. -/
inductive NumeralFault where
  | invalidDigit
  | tooLarge
deriving DecidableEq, Repr

/-- The wording of a fault. -/
def NumeralFault.message : NumeralFault → String
  | .invalidDigit => "invalid digit found in string"
  | .tooLarge => "number too large to fit in target type"

/-- Read digits after those with the value `acc`. -/
def readDigits (limit acc : Nat) : List Char → Except NumeralFault Nat
  | [] => .ok acc
  | c :: rest =>
    if !c.isDigit then .error .invalidDigit
    else if limit < acc * 10 + (c.toNat - 48) then .error .tooLarge
    else readDigits limit (acc * 10 + (c.toNat - 48)) rest

/-- Read a numeral of at most `limit`. -/
def readNumeral (limit : Nat) : List Char → Except NumeralFault Nat
  | [] => .error .invalidDigit
  | ['+'] => .error .invalidDigit
  | '+' :: rest => readDigits limit 0 rest
  | word => readDigits limit 0 word

end Munch.Text
