import LineCalc.Decimal.Basic

/-!
# Layouts of decimals

A decimal is written positionally, or with one digit before the point and a
signed power of ten after an `e`.
-/

namespace LineCalc

namespace Decimal

/-- Positional text: whole numbers without a point, fractions with at least one
digit before it. -/
def positional (d : Decimal) : List Char :=
  if 0 ≤ d.exponent then
    d.digits ++ List.replicate d.exponent.toNat '0'
  else
    let places := (-d.exponent).toNat
    let padded := List.replicate (places + 1 - d.digits.length) '0' ++ d.digits
    let whole := padded.length - places
    padded.take whole ++ '.' :: padded.drop whole

/-- An integer with an explicit sign. -/
def signedInteger (n : Int) : List Char :=
  (if n < 0 then '-' else '+') :: Nat.toDigits 10 n.natAbs

/-- Exponent text: the leading digit, the others after a point if there are any,
and the power of ten of the leading digit. -/
def scientific (d : Decimal) : List Char :=
  let fraction := d.digits.drop 1
  d.digits.take 1 ++ (if fraction = [] then [] else '.' :: fraction) ++
    'e' :: signedInteger d.leadingExponent

end Decimal

end LineCalc
