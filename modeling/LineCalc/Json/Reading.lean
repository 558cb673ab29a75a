import LineCalc.Json.Basic
import LineCalc.Json.Token

/-!
# Reading JSON

A value is read token by token, on a stack of the arrays and objects that are
still open.
-/

namespace LineCalc

/-- An array or an object that is still open.  Items and members are kept with
the last one first. -/
inductive OpenJson
  | array (items : List Json)
  /-- The value of `key` comes next. -/
  | object (members : List (List Nat × Json)) (key : List Nat)

/-- What has been read of a text, by what may come next. -/
inductive JsonReading
  | atValue (stack : List OpenJson)
  /-- A first item or the end of an array. -/
  | atItem (stack : List OpenJson)
  /-- A first member or the end of an object. -/
  | atMember (stack : List OpenJson)
  /-- The key of a further member. -/
  | atKey (members : List (List Nat × Json)) (stack : List OpenJson)
  | atColon (members : List (List Nat × Json)) (key : List Nat)
      (stack : List OpenJson)
  /-- A comma or the end of what is open, or else the end of the text. -/
  | afterValue (value : Json) (stack : List OpenJson)

namespace JsonReading

/-- Nothing has been read. -/
def start : JsonReading := .atValue []

/-- A token where a value is due. -/
def value? (stack : List OpenJson) : JsonToken -> Option JsonReading
  | .null => some (.afterValue .null stack)
  | .bool value => some (.afterValue (.bool value) stack)
  | .number literal => some (.afterValue (.number literal) stack)
  | .string units => some (.afterValue (.string units) stack)
  | .openArray => some (.atItem stack)
  | .openObject => some (.atMember stack)
  | _ => none

/-- What has been read after one more token. -/
def next? : JsonReading -> JsonToken -> Option JsonReading
  | .atValue stack, token => value? stack token
  | .atItem stack, .closeArray => some (.afterValue (.array []) stack)
  | .atItem stack, token => value? (.array [] :: stack) token
  | .atMember stack, .closeObject => some (.afterValue (.object []) stack)
  | .atMember stack, .string key => some (.atColon [] key stack)
  | .atKey members stack, .string key => some (.atColon members key stack)
  | .atColon members key stack, .colon =>
      some (.atValue (.object members key :: stack))
  | .afterValue value (.array items :: stack), .comma =>
      some (.atValue (.array (value :: items) :: stack))
  | .afterValue value (.array items :: stack), .closeArray =>
      some (.afterValue (.array (value :: items).reverse) stack)
  | .afterValue value (.object members key :: stack), .comma =>
      some (.atKey ((key, value) :: members) stack)
  | .afterValue value (.object members key :: stack), .closeObject =>
      some (.afterValue (.object ((key, value) :: members).reverse) stack)
  | _, _ => none

/-- Reads on to the end of the text, where one complete value must have been
read. -/
def run? : JsonReading -> List JsonToken -> Option Json
  | .afterValue value [], [] => some value
  | _, [] => none
  | reading, token :: rest => (reading.next? token).bind (run? · rest)

end JsonReading

/-- The value that a strict JSON text holds. -/
def Json.parse? (text : String) : Option Json :=
  (JsonToken.scanAll? text.toList).bind JsonReading.start.run?

end LineCalc
