import LineCalc.Tree.Code

/-!
# Relocated code

A program can be moved to another memory layout by adding the same distance to
all addresses that it loads from and stores to.  Registers and constants stay.
-/

namespace LineCalc

def Instruction.relocate (distance : Nat) : Instruction -> Instruction
  | .load register address => .load register (address + distance)
  | .store address register => .store (address + distance) register
  | .storeImmediate address value => .storeImmediate (address + distance) value
  | instruction => instruction

def Binding.relocate (distance : Nat) : Binding -> Binding
  | .existing name address => .existing name (address + distance)
  | .new name address => .new name (address + distance)

namespace Binding

@[simp] theorem name_relocate (distance : Nat) (binding : Binding) :
    (binding.relocate distance).name = binding.name := by
  cases binding <;> rfl

@[simp] theorem address_relocate (distance : Nat) (binding : Binding) :
    (binding.relocate distance).address = binding.address + distance := by
  cases binding <;> rfl

end Binding

def Statement.relocate (distance : Nat) (statement : Statement) : Statement :=
  { statement with
    binding := statement.binding.map (Binding.relocate distance) }

def Compiled.relocate (distance : Nat) (compiled : Compiled) : Compiled :=
  { compiled with
    code := compiled.code.map (Instruction.relocate distance)
    binding := compiled.binding.map (Binding.relocate distance) }

end LineCalc
