import LineCalc.Decimal.Value

/-!
# Shortest decimals and their notations

The value of a word that is not zero is written with the fewest digits that are
rounded back to the word.  Of such decimals it is the nearest one, and of two
that are equally near the larger.  Its digits are written positionally, or with
a power of ten behind an `e`.
-/

namespace LineCalc

namespace Decimal

def value (d : Decimal) : ℚ :=
  d.significand * (10 : ℚ) ^ d.exponent

/-- The decimal with which a word without a sign is written. -/
structure IsShortest (word : UInt64) (d : Decimal) : Prop where
  rounds : Word.Rounds d.value word
  fewest : forall other : Decimal, Word.Rounds other.value word ->
    d.digits.length ≤ other.digits.length
  nearest : forall other : Decimal, Word.Rounds other.value word ->
    other.digits.length = d.digits.length ->
    |d.value - Word.value word| ≤ |other.value - Word.value word|
  larger : forall other : Decimal, Word.Rounds other.value word ->
    other.digits.length = d.digits.length ->
    |d.value - Word.value word| = |other.value - Word.value word| ->
      other.value ≤ d.value

/-- Positional texts of digits, the first of which stands for a multiple of
`10 ^ exponent`: zeros take the places between the digits and the point. -/
inductive Plain : List Char -> Int -> List Char -> Prop
  | whole (digits : List Char) (zeros : Nat) :
      Plain digits (digits.length + zeros - 1)
        (digits ++ List.replicate zeros '0')
  | point (whole fraction : List Char) (hwhole : whole ≠ [])
      (hfraction : fraction ≠ []) :
      Plain (whole ++ fraction) (whole.length - 1) (whole ++ '.' :: fraction)
  | fraction (digits : List Char) (zeros : Nat) :
      Plain digits (-(zeros + 1))
        ('0' :: '.' :: (List.replicate zeros '0' ++ digits))

/-- A power of ten behind an `e`, with its sign whatever it is. -/
def power (exponent : Int) : List Char :=
  'e' :: (if exponent < 0 then '-' else '+') :: Nat.toDigits 10 exponent.natAbs

/-- Exponent texts of digits, with a point behind the first one if it is not the
only one. -/
inductive Scientific : List Char -> Int -> List Char -> Prop
  | single (first : Char) (exponent : Int) :
      Scientific [first] exponent (first :: power exponent)
  | point (first second : Char) (others : List Char) (exponent : Int) :
      Scientific (first :: second :: others) exponent
        (first :: '.' :: second :: others ++ power exponent)

end Decimal

namespace Numeral

/-- The integer that is written as digits behind a sign. -/
def integer : List Char -> Int
  | '-' :: digits => -(Nat.ofDigitChars 10 digits 0 : Int)
  | '+' :: digits => Nat.ofDigitChars 10 digits 0
  | digits => Nat.ofDigitChars 10 digits 0

/-- The value of a numeral and of the power of ten behind an `e`, if there is
one. -/
def scaledValue (text : List Char) : ℚ :=
  value (text.takeWhile (· ≠ 'e')) *
    (10 : ℚ) ^ integer ((text.dropWhile (· ≠ 'e')).drop 1)

/-- The value of a text that may start with a minus sign. -/
def textValue : List Char -> ℚ
  | '-' :: text => -scaledValue text
  | text => scaledValue text

end Numeral

/-- How a word that is finite and not zero is written: with the digits of the
only shortest decimal, positionally if the first of them stands for a multiple
of `10 ^ (-6)` to `10 ^ 20` and with a power of ten otherwise.  The text is
rounded back to the word. -/
structure Word.WrittenAs (word : UInt64) (text : List Char) (d : Decimal)
    (body : List Char) : Prop where
  shortest : forall other : Decimal,
    other.IsShortest (unsigned word) <-> other = d
  sign : text = if value word < 0 then '-' :: body else body
  plain : Decimal.Plain d.digits d.leadingExponent body <->
    -6 ≤ d.leadingExponent ∧ d.leadingExponent ≤ 20
  scientific : Decimal.Scientific d.digits d.leadingExponent body <->
    ¬ (-6 ≤ d.leadingExponent ∧ d.leadingExponent ≤ 20)
  rounds : RoundsSigned (Numeral.textValue text) word

end LineCalc
