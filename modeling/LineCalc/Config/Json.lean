import LineCalc.Config.Basic
import LineCalc.Json.Reading
import LineCalc.Json.Text

/-!
# Configurations in JSON

A configuration is read from an object or from an array.  An object may leave
settings out and may have members with other keys; an array holds the settings
in order and may end early.  What is left out has its standard value.
-/

namespace LineCalc

namespace Config

/-- A setting is a natural number of 64 bits, spelled with digits alone. -/
def setting? (value : Json) : Option Nat :=
  value.natural?.filter (· < 0x10000000000000000)

/-- The setting with a key that must not be repeated. -/
def member? (members : List (List Char × Json)) (key : String)
    (standard : Nat) : Option Nat :=
  match members.filter (·.1 = key.toList) with
  | [] => some standard
  | [(_, value)] => setting? value
  | _ => none

/-- A configuration from the members of an object.  All keys have to be
texts. -/
def ofMembers? (members : List (List Nat × Json)) : Option Config := do
  let members ← members.mapM fun (key, value) => (decode16? key).map (·, value)
  return {
    heapBase := ← member? members "heap_base" standard.heapBase
    stackTop := ← member? members "stack_top" standard.stackTop
    maxDepth := ← member? members "max_depth" standard.maxDepth }

/-- A configuration from the items of an array. -/
def ofItems? (items : List Json) : Option Config := do
  let settings ← items.mapM setting?
  if settings.length ≤ 3 then
    return {
      heapBase := settings[0]?.getD standard.heapBase
      stackTop := settings[1]?.getD standard.stackTop
      maxDepth := settings[2]?.getD standard.maxDepth }
  else
    none

def ofJson? : Json -> Option Config
  | .object members => ofMembers? members
  | .array items => ofItems? items
  | _ => none

def parse? (text : String) : Option Config :=
  (Json.parse? text).bind ofJson?

def json (config : Config) : String :=
  jsonObject [("heap_base", config.heapBase.repr),
    ("stack_top", config.stackTop.repr), ("max_depth", config.maxDepth.repr)]

end Config

end LineCalc
