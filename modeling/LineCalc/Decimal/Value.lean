import LineCalc.Binary64.Encoding
import LineCalc.Decimal.Numeral

/-!
# Values of numerals

A run of digits with at most one point denotes a rational.  The word that it is
decoded to has to be the one to which this rational is rounded.
-/

namespace LineCalc

namespace Numeral

def digit (c : Char) : ℚ :=
  (c.toNat - '0'.toNat : Nat)

def whole (digits : List Char) : ℚ :=
  digits.foldl (fun value c => 10 * value + digit c) 0

def fraction : List Char -> ℚ
  | [] => 0
  | c :: digits => (digit c + fraction digits) / 10

/-- The rational that a run of digits with at most one point denotes. -/
def value (run : List Char) : ℚ :=
  whole (run.takeWhile (· ≠ '.')) + fraction ((run.dropWhile (· ≠ '.')).drop 1)

/-- A run of digits and points between two texts, neither of which makes it
longer. -/
structure IsRun (before run after : List Char) : Prop where
  nonempty : run ≠ []
  chars : forall c, c ∈ run -> isNumeralChar c
  starts : forall c, before.getLast? = some c -> ¬ isNumeralChar c
  ends : forall c, after.head? = some c -> ¬ isNumeralChar c

/-- The word to which a run of digits and points is decoded. -/
structure Decodes (run : List Char) (word : UInt64) : Prop where
  nan : Word.IsNaN word <-> (forall c, c ∈ run -> ¬ c.isDigit) ∨
    1 < run.count '.'
  unsigned : Word.sign word = 0
  rounds : ¬ Word.IsNaN word -> Word.Rounds (value run) word

end Numeral

end LineCalc
