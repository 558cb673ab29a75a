import LineCalc.Binary64.Rounding

/-!
# Arithmetic on binary64 numbers

Each operation takes the exact result on units and rounds it once.  Zeros keep
the signs that IEEE 754 gives them, and an operation without a meaningful
result, such as `0 / 0` or `∞ - ∞`, is NaN.
-/

namespace LineCalc

namespace Binary64

/-- A finite number as a signed count of units. -/
def signedUnits (negative : Bool) (m : Magnitude) : Int :=
  if negative then -(m.units : Int) else m.units

/-- The number nearest to a signed count of units; a zero count is `+0`. -/
def ofUnits (total : Int) : Binary64 :=
  signed (total < 0) (.nearest total.natAbs 1)

/-- An exact sum of zero is `+0`, unless both terms are negative zeros. -/
def add : Binary64 -> Binary64 -> Binary64
  | nan, _ => nan
  | _, nan => nan
  | signed s a, signed t b =>
      if a = .infinity then
        if b = .infinity ∧ s ≠ t then nan else signed s a
      else if b = .infinity then signed t b
      else
        let total := signedUnits s a + signedUnits t b
        if total = 0 then signed (s && t) .zero else ofUnits total

def sub (x y : Binary64) : Binary64 :=
  x.add y.neg

def mul : Binary64 -> Binary64 -> Binary64
  | nan, _ => nan
  | _, nan => nan
  | signed s a, signed t b =>
      if a = .infinity then
        if b = .zero then nan else signed (s ^^ t) .infinity
      else if b = .infinity then
        if a = .zero then nan else signed (s ^^ t) .infinity
      else
        signed (s ^^ t) (.nearest (a.units * b.units) unitsPerOne)

def div : Binary64 -> Binary64 -> Binary64
  | nan, _ => nan
  | _, nan => nan
  | signed s a, signed t b =>
      if a = .infinity then
        if b = .infinity then nan else signed (s ^^ t) .infinity
      else if b = .infinity then signed (s ^^ t) .zero
      else if b = .zero then
        if a = .zero then nan else signed (s ^^ t) .infinity
      else
        signed (s ^^ t) (.nearest (a.units * unitsPerOne) b.units)

end Binary64

end LineCalc
