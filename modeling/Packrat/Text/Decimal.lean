/-! Unsigned decimal numerals with a largest admissible value. -/

namespace Packrat.Decimal

inductive Error where
  | empty
  | invalidDigit
  | tooLarge
  deriving DecidableEq, Repr

namespace Error

def message : Error → String
  | empty => "cannot parse integer from empty string"
  | invalidDigit => "invalid digit found in string"
  | tooLarge => "number too large to fit in target type"

end Error

def isDigit (c : Char) : Bool := '0' ≤ c && c ≤ '9'

def worth (c : Char) : Nat := c.toNat - '0'.toNat

/-- Continues the value `value` with further digits. The first fault from the left is reported. -/
def extend (bound : Nat) (value : Nat) : List Char → Except Error Nat
  | [] => .ok value
  | c :: rest =>
    if isDigit c then
      let value := value * 10 + worth c
      if value ≤ bound then extend bound value rest else .error .tooLarge
    else .error .invalidDigit

/-- Reads a numeral of at most `bound`, with an optional plus sign before its digits. -/
def read (bound : Nat) : List Char → Except Error Nat
  | [] => .error .empty
  | ['+'] => .error .invalidDigit
  | '+' :: rest => extend bound 0 rest
  | digits => extend bound 0 digits

def max32 : Nat := 4294967295

def max64 : Nat := 18446744073709551615

end Packrat.Decimal
