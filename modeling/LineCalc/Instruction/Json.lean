import LineCalc.Binary64.Text
import LineCalc.Instruction.Basic
import LineCalc.Json.Text

/-!
# Programs in JSON

A program is an array of objects, each of which names the kind of an instruction
and then its operands.
-/

namespace LineCalc

namespace Instruction

/-- The members of an instruction's object, in order. -/
def jsonMembers : Instruction -> List (String × String)
  | loadImmediate register value =>
      [("kind", jsonWord "load_imm"), ("reg", register.repr),
        ("value", value.jsonText)]
  | load register address =>
      [("kind", jsonWord "load"), ("reg", register.repr),
        ("addr", address.repr)]
  | store address register =>
      [("kind", jsonWord "store"), ("addr", address.repr),
        ("reg", register.repr)]
  | storeImmediate address value =>
      [("kind", jsonWord "store_imm"), ("addr", address.repr),
        ("value", value.jsonText)]
  | move source target =>
      [("kind", jsonWord "move"), ("src", source.repr), ("dst", target.repr)]
  | binary op left right target =>
      [("kind", jsonWord "binary"), ("op", jsonWord op.mnemonic),
        ("left", left.repr), ("right", right.repr), ("dest", target.repr)]
  | halt => [("kind", jsonWord "halt")]

def json (instruction : Instruction) : String :=
  jsonObject instruction.jsonMembers

end Instruction

def programJson (code : List Instruction) : String :=
  jsonArray (code.map Instruction.json)

end LineCalc
