import LineCalc.Binary64.Text
import LineCalc.Instruction.Basic

/-!
# Listings

An instruction is written as its mnemonic, in a column six characters wide, and
its operands: registers behind an `r`, addresses behind an `@`, constants as
plain numbers.  A listing has one line per instruction, which starts with the
address that the instruction is loaded to.
-/

namespace LineCalc

namespace Instruction

def mnemonic : Instruction -> String
  | loadImmediate .. => "loadi"
  | load .. => "load"
  | store .. => "store"
  | storeImmediate .. => "storei"
  | move .. => "mov"
  | binary op .. => op.mnemonic
  | halt => "halt"

def registerText (register : Nat) : String :=
  "r" ++ register.repr

def addressText (address : Nat) : String :=
  "@" ++ address.repr

def operands : Instruction -> List String
  | loadImmediate register value => [registerText register, value.plainText]
  | load register address => [registerText register, addressText address]
  | store address register => [addressText address, registerText register]
  | storeImmediate address value => [addressText address, value.plainText]
  | move source target => [registerText source, registerText target]
  | binary _ left right target =>
      [registerText left, registerText right, registerText target]
  | halt => []

/-- The instruction as listings show it.  One without operands is its mnemonic
alone. -/
def text (instruction : Instruction) : String :=
  match instruction.operands with
  | [] => instruction.mnemonic
  | operands =>
      String.ofList (instruction.mnemonic.toList.rightpad 6 ' ') ++
        String.join (operands.map fun operand => " " ++ operand)

end Instruction

/-- The line of a listing for the instruction at an address, whose number fills
a column of the given width from the right. -/
def listingLine (width address : Nat) (instruction : Instruction) : String :=
  String.ofList ((Nat.toDigits 10 address).leftpad width ' ') ++ "  " ++
    instruction.text ++ "\n"

/-- The listing of a program.  Its first column is as wide as the last
address. -/
def listing (code : List Instruction) : String :=
  let width := (Nat.toDigits 10 (code.length - 1)).length
  String.join (code.zipIdx.map fun (instruction, address) =>
    listingLine width address instruction)

end LineCalc
