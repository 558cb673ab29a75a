import LineCalc.Decimal.Notation
import LineCalc.Decimal.Numeral

/-!
# Number literals

A literal is a numeral, perhaps behind a minus sign and with a power of ten
behind an `e`.  It is read by rounding its value once.
-/

namespace LineCalc

/-- The decimal of a numeral and of the power of ten behind an `e`, if there is
one. -/
def Decimal.ofScaled? (text : List Char) : Option Decimal :=
  (ofNumeral? (text.takeWhile (· ≠ 'e'))).map fun d =>
    ⟨d.significand,
      d.exponent + Numeral.integer ((text.dropWhile (· ≠ 'e')).drop 1)⟩

/-- The number that a literal denotes, if it denotes one. -/
def Binary64.ofLiteral? : List Char -> Option Binary64
  | '-' :: text => (Decimal.ofScaled? text).map fun d => signed true d.magnitude
  | text => (Decimal.ofScaled? text).map fun d => signed false d.magnitude

end LineCalc
