import LineCalc.Binary64.Literal
import LineCalc.Instruction.Basic
import LineCalc.Json.Reading

/-!
# Reading programs from JSON

A program is read from an array of objects.  The kind of an instruction tells
which members its object must have, and these may come in any order.
-/

namespace LineCalc

namespace Json

def text? : Json -> Option String
  | string units => (decode16? units).map String.ofList
  | _ => none

def members? : Json -> Option (List (String × Json))
  | object members =>
      members.mapM fun (key, value) =>
        (string key).text?.map fun key => (key, value)
  | _ => none

def member? (members : List (String × Json)) (key : String) : Option Json :=
  (members.find? (·.fst = key)).map Prod.snd

end Json

/-- The number that a JSON value stands for.  All numbers that are not finite
are written as `null`, which is read as NaN. -/
def Binary64.ofJson? : Json -> Option Binary64
  | .null => some nan
  | .number literal => ofLiteral? literal
  | _ => none

def Operator.ofMnemonic? (mnemonic : String) : Option Operator :=
  [additive .plus, additive .minus, multiplicative .times,
    multiplicative .over].find?
    (·.mnemonic = mnemonic)

namespace Instruction

/-- An instruction of a kind, with its operands among the members of an
object. -/
def ofMembers? (members : List (String × Json)) (kind : String) :
    Option Instruction :=
  let natural (key : String) := (Json.member? members key).bind Json.natural?
  let constant (key : String) :=
    (Json.member? members key).bind Binary64.ofJson?
  let operator (key : String) :=
    ((Json.member? members key).bind Json.text?).bind Operator.ofMnemonic?
  match kind with
  | "load_imm" => return loadImmediate (← natural "reg") (← constant "value")
  | "load" => return load (← natural "reg") (← natural "addr")
  | "store" => return store (← natural "addr") (← natural "reg")
  | "store_imm" => return storeImmediate (← natural "addr") (← constant "value")
  | "move" => return move (← natural "src") (← natural "dst")
  | "binary" =>
      return binary (← operator "op") (← natural "left") (← natural "right")
        (← natural "dest")
  | "halt" => return halt
  | _ => none

def ofJson? (json : Json) : Option Instruction := do
  let members ← json.members?
  let kind ← (Json.member? members "kind").bind Json.text?
  ofMembers? members kind

end Instruction

def programOfJson? (text : String) : Option (List Instruction) :=
  match Json.parse? text with
  | some (.array items) => items.mapM Instruction.ofJson?
  | _ => none

end LineCalc
