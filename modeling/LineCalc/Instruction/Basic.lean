import LineCalc.Operator

/-!
# Instructions

The instructions of the register machine.  Registers and memory addresses are
natural numbers.
-/

namespace LineCalc

inductive Instruction
  /-- Puts a constant into a register. -/
  | loadImmediate (register : Nat) (value : Binary64)
  /-- Puts the number at an address into a register. -/
  | load (register address : Nat)
  /-- Puts a register's number at an address. -/
  | store (address register : Nat)
  /-- Puts a constant at an address. -/
  | storeImmediate (address : Nat) (value : Binary64)
  /-- Copies a register into another. -/
  | move (source target : Nat)
  /-- Puts the result of an operation on two registers into a register. -/
  | binary (op : Operator) (left right target : Nat)
  /-- Ends the program. -/
  | halt
deriving DecidableEq, Repr

end LineCalc
