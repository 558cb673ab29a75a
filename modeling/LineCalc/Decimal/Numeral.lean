import LineCalc.Decimal.Basic

/-!
# Numerals

A numeral is a run of digits and points.  It denotes a number when it has at
least one digit and at most one point; the digits may all stand on one side of
the point.  Any other run denotes NaN.
-/

namespace LineCalc

/-- The characters of numerals. -/
def isNumeralChar (c : Char) : Bool :=
  c.isDigit || c = '.'

/-- The exact value of a numeral, if it denotes one. -/
def Decimal.ofNumeral? (text : List Char) : Option Decimal :=
  let whole := text.takeWhile (· ≠ '.')
  let fraction := (text.dropWhile (· ≠ '.')).drop 1
  let digits := whole ++ fraction
  if digits ≠ [] ∧ digits.all Char.isDigit then
    some ⟨Nat.ofDigitChars 10 digits 0, -fraction.length⟩
  else
    none

/-- The number that a numeral denotes, correctly rounded. -/
def Binary64.ofNumeral (text : List Char) : Binary64 :=
  match Decimal.ofNumeral? text with
  | some d => signed false d.magnitude
  | none => nan

end LineCalc
