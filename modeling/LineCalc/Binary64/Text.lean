import LineCalc.Decimal.Shortest
import LineCalc.Decimal.Layout

/-!
# Texts of numbers

A number is written in three ways, all with the fewest digits that read back:

* plain, in tokens and listings, always positional; * as a result, where very
large and very small numbers have an exponent; * in JSON, where every number has
a fraction or an exponent.
-/

namespace LineCalc

namespace Binary64

/-- The text of a magnitude behind a minus sign where there is one. -/
def withSign (negative : Bool) (text : List Char) : List Char :=
  if negative then '-' :: text else text

/-- Plain text: positional whatever the size, zeros with their sign.  Of two
equally near shortest decimals it is the larger. -/
def plainChars : Binary64 -> List Char
  | nan => ['N', 'a', 'N']
  | signed negative m =>
      withSign negative <|
        if m = .infinity then ['i', 'n', 'f'] else (m.shortest .up).positional

/-- Whether a result is written with an exponent: from `10 ^ 21` upward and
below the number nearest to `10 ^ (-6)`. -/
def needsExponent (m : Magnitude) : Bool :=
  (Decimal.mk 1 21).magnitude.rank ≤ m.rank ||
    m.rank < (Decimal.mk 1 (-6)).magnitude.rank

/-- Result text: zeros have no sign, and infinities are spelled out. -/
def resultChars : Binary64 -> List Char
  | nan => ['N', 'a', 'N']
  | signed negative m =>
      if m = .zero then ['0']
      else
        withSign negative <|
          if m = .infinity then ['I', 'n', 'f', 'i', 'n', 'i', 't', 'y']
          else if needsExponent m then (m.shortest .up).scientific
          else (m.shortest .up).positional

/-- JSON text: positional, with a fraction, for leading powers of ten from `-5`
to `15`.  Of two equally near shortest decimals it is the even one.  What is not
finite has no JSON number and is `null`. -/
def jsonChars : Binary64 -> List Char
  | nan => ['n', 'u', 'l', 'l']
  | signed negative m =>
      if m = .infinity then ['n', 'u', 'l', 'l']
      else
        withSign negative <|
          let d := m.shortest .toEven
          if -5 ≤ d.leadingExponent ∧ d.leadingExponent ≤ 15 then
            d.positional ++ if 0 ≤ d.exponent then ['.', '0'] else []
          else
            d.scientific

def plainText (x : Binary64) : String :=
  String.ofList x.plainChars

def resultText (x : Binary64) : String :=
  String.ofList x.resultChars

def jsonText (x : Binary64) : String :=
  String.ofList x.jsonChars

end Binary64

end LineCalc
