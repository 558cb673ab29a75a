/-!
# JSON values

Numbers are kept as they are spelled and strings as UTF-16 code units, since
neither a number that fits no machine word nor a lone surrogate is an error by
itself.
-/

namespace LineCalc

inductive Json
  | null
  | bool (value : Bool)
  | number (literal : List Char)
  | string (units : List Nat)
  | array (items : List Json)
  /-- The members in order, repeated keys included. -/
  | object (members : List (List Nat × Json))

/-- The value of a number that is spelled with digits alone. -/
def Json.natural? : Json -> Option Nat
  | .number literal =>
      if literal.all Char.isDigit then
        some (Nat.ofDigitChars 10 literal 0)
      else
        none
  | _ => none

end LineCalc
