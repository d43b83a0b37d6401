/-!
# Decimal numerals

`numeral` writes a number in decimal digits. For reading, a numeral is an optional `+` followed by
one or more ASCII digits; leading zeros are allowed. It is read from the left with a bound on its
value, and the first thing wrong decides the fault: at one and the same character a foreign
character comes before a value that is too large.
-/

namespace Vitae.Text

/-- A number in decimal digits. -/
def numeral (n : Nat) : String := String.ofList (Nat.toDigits 10 n)

/-- Why a text is no numeral below the bound. -/
inductive NumeralFault where
  | empty
  /-- A character that is no digit, or a sign alone. -/
  | invalidDigit
  /-- The digits read so far reach the bound. -/
  | tooLarge
  deriving Repr, DecidableEq

/-- The wording of a fault. -/
def NumeralFault.message : NumeralFault → String
  | .empty => "cannot parse integer from empty string"
  | .invalidDigit => "invalid digit found in string"
  | .tooLarge => "number too large to fit in target type"

/-- The value of an ASCII digit. -/
def digitValue? (c : Char) : Option Nat :=
  if '0' ≤ c ∧ c ≤ '9' then some (c.toNat - '0'.toNat) else none

/-- Reads digits from the left onto the value `n` of those before them. -/
def readDigits (bound : Nat) : Nat → List Char → Except NumeralFault Nat
  | n, [] => .ok n
  | n, c :: rest =>
    match digitValue? c with
    | none => .error .invalidDigit
    | some d => if 10 * n + d < bound then readDigits bound (10 * n + d) rest else .error .tooLarge

/-- Reads an unsigned numeral whose value lies below `bound`. -/
def readNumeral (bound : Nat) : List Char → Except NumeralFault Nat
  | [] => .error .empty
  | ['+'] => .error .invalidDigit
  | '+' :: digits => readDigits bound 0 digits
  | digits => readDigits bound 0 digits

end Vitae.Text
