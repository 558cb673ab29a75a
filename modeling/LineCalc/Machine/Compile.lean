import LineCalc.Machine.Basic
import LineCalc.Tree.Code

/-!
# Compiling on a machine

A line is compiled for a machine and the names bound into its memory.  A new
variable gets the next heap address, which is not reserved yet; the program
works in the registers that the machine hands out next, and these stay handed
out, also where the line turns out to be wrong.
-/

namespace LineCalc

namespace Machine

/-- What lines are read against. -/
def scope (machine : Machine) (symbols : SymbolTable)
    (maxDepth : Nat) : Scope where
  symbols
  nextAddress := machine.nextHeapAddress 1
  maxDepth

/-- Compiles the line that a stream holds. -/
def compile (machine : Machine) (symbols : SymbolTable) (maxDepth : Nat)
    (stream : TokenStream) : Machine × Except ParseError Compiled :=
  match Compiled.ofStream
    (machine.scope symbols maxDepth) stream machine.registersInUse with
  | .ok compiled => (machine.claimRegisters compiled.registers, .ok compiled)
  | .error failure =>
      (machine.claimRegisters failure.registers, .error failure.error)

end Machine

end LineCalc
