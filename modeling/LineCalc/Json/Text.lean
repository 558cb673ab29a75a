/-!
# Writing JSON

Compact JSON, without blanks between the tokens.
-/

namespace LineCalc

/-- A JSON string of characters that stand for themselves: no quotes, no
backslashes, no control characters. -/
def jsonWord (word : String) : String :=
  "\"" ++ word ++ "\""

def jsonArray (items : List String) : String :=
  "[" ++ ",".intercalate items ++ "]"

/-- An object with the given members in order; the keys stand for themselves. -/
def jsonObject (members : List (String × String)) : String :=
  "\x7b" ++ ",".intercalate
    (members.map fun (key, value) => jsonWord key ++ ":" ++ value) ++ "\x7d"

end LineCalc
