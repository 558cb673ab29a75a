import LineCalc.Machine.Run

/-!
# Programs read straight through

What a program does can be told from its instructions alone, without looking at
the memory that they are fetched from.  They are taken one after the other.  One
in whose place an earlier one has stored a number is passed over; the program
ends at the first `halt` that is still there, or behind its last instruction.
-/

namespace LineCalc

/-- How far a program has been taken, and what it has done on the way. -/
structure Interpretation where
  /-- The numbers in all registers. -/
  registers : Nat -> Binary64
  /-- The addresses and numbers that have been stored, the latest first. -/
  stores : List (Nat × Binary64)
  /-- The address of the next instruction. -/
  next : Nat

namespace Interpretation

def start (registers : Nat -> Binary64) : Interpretation :=
  ⟨registers, [], 0⟩

/-- The number at an address, where `given` is there as long as nothing is
stored. -/
def read (given : Nat -> Binary64) (interpretation : Interpretation)
    (address : Nat) : Binary64 :=
  (interpretation.stores.lookup address).getD (given address)

def setRegister (interpretation : Interpretation) (register : Nat)
    (value : Binary64) : Interpretation :=
  { interpretation with
    registers := fun index =>
      if register = index then value else interpretation.registers index }

def store (interpretation : Interpretation) (address : Nat) (value : Binary64) :
    Interpretation :=
  { interpretation with stores := (address, value) :: interpretation.stores }

def perform (given : Nat -> Binary64) (interpretation : Interpretation) :
    Instruction -> Interpretation
  | .loadImmediate register value => interpretation.setRegister register value
  | .load register address =>
      interpretation.setRegister register (interpretation.read given address)
  | .store address register =>
      interpretation.store address (interpretation.registers register)
  | .storeImmediate address value => interpretation.store address value
  | .move source target =>
      interpretation.setRegister target (interpretation.registers source)
  | .binary op left right target =>
      interpretation.setRegister target
        (op.apply (interpretation.registers left) (interpretation.registers right))
  | .halt => interpretation

def advance (interpretation : Interpretation) : Interpretation :=
  { interpretation with next := interpretation.next + 1 }

def run (given : Nat -> Binary64) : List Instruction -> Interpretation ->
    Interpretation
  | [], interpretation => interpretation
  | instruction :: rest, interpretation =>
      if (interpretation.stores.lookup interpretation.next).isSome then
        run given rest interpretation.advance
      else if instruction = .halt then
        interpretation
      else
        run given rest (interpretation.perform given instruction).advance

end Interpretation

/-- The number that a program finds at an address before it stores one there:
none in its own cells and in empty ones. -/
def Machine.given (machine : Machine) (code : List Instruction)
    (address : Nat) : Binary64 :=
  if address < code.length then .nan else (machine.read? address).getD .nan

/-- The execution after a number of steps, unless it stops before. -/
def Execution.after (execution : Execution) : Nat -> Option Execution
  | 0 => some execution
  | steps + 1 => (execution.after steps).bind step?

end LineCalc
