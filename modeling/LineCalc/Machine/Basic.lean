import Std.Data.TreeMap
import LineCalc.Config.Basic
import LineCalc.Instruction.Basic
import LineCalc.Machine.Error

/-!
# The machine

A register machine whose memory holds code and data in one address space: the
program from address 0 on, and variables on a heap that grows from the heap base
up to the stack.  Registers that were never written hold NaN.
-/

namespace LineCalc

/-- The contents of a memory cell. -/
inductive Word
  | code (instruction : Instruction)
  | data (value : Binary64)
deriving DecidableEq, Repr

structure Machine where
  memory : Std.TreeMap Nat Word
  registers : Std.TreeMap Nat Binary64
  /-- How many registers have been handed out. -/
  registersInUse : Nat
  /-- How many cells from address 0 on belong to the program. -/
  codeLength : Nat
  heapBase : Nat
  /-- The next heap address. -/
  heap : Nat
  /-- The address that the heap may not grow beyond. -/
  stack : Nat

namespace Machine

/-- A machine with an empty memory. -/
def new (config : Config) : Machine where
  memory := .empty
  registers := .empty
  registersInUse := 0
  codeLength := 0
  heapBase := config.heapBase
  heap := config.heapBase
  stack := config.stackTop

/-!
## Cells and registers
-/

/-- The contents of a cell, if it was ever written. -/
def word? (machine : Machine) (address : Nat) : Option Word :=
  machine.memory[address]?

/-- The number in a cell, if it holds one. -/
def read? (machine : Machine) (address : Nat) : Option Binary64 :=
  match machine.word? address with
  | some (.data value) => some value
  | _ => none

def write (machine : Machine) (address : Nat) (word : Word) : Machine :=
  { machine with memory := machine.memory.insert address word }

def register (machine : Machine) (index : Nat) : Binary64 :=
  machine.registers[index]?.getD .nan

def setRegister (machine : Machine) (index : Nat)
    (value : Binary64) : Machine :=
  { machine with registers := machine.registers.insert index value }

@[simp] theorem word?_write (machine : Machine) (address other : Nat)
    (word : Word) :
    (machine.write address word).word? other =
      if address = other then some word else machine.word? other := by
  simp [write, word?, Std.TreeMap.getElem?_insert]

@[simp] theorem register_write (machine : Machine) (address index : Nat)
    (word : Word) :
    (machine.write address word).register index = machine.register index :=
  rfl

@[simp] theorem register_setRegister (machine : Machine) (index other : Nat)
    (value : Binary64) :
    (machine.setRegister index value).register other =
      if index = other then value else machine.register other := by
  simp only [setRegister, register, Std.TreeMap.getElem?_insert,
    Nat.compare_eq_eq]
  split <;> rfl

@[simp] theorem word?_setRegister (machine : Machine) (index address : Nat)
    (value : Binary64) :
    (machine.setRegister index value).word? address = machine.word? address :=
  rfl

/-- Hands out the next register. -/
def newRegister (machine : Machine) : Machine × Nat :=
  ({ machine with registersInUse := machine.registersInUse + 1 },
    machine.registersInUse)

/-- Hands out the next `count` registers. -/
def claimRegisters (machine : Machine) (count : Nat) : Machine :=
  { machine with registersInUse := machine.registersInUse + count }

/-- Takes all registers back and clears them. -/
def resetRegisters (machine : Machine) : Machine :=
  { machine with registers := .empty, registersInUse := 0 }

/-!
## Programs
-/

/-- Whether a program fits below the heap and ends with `halt`. -/
def check (machine : Machine) (code : List Instruction) :
    Except MachineError Unit :=
  if machine.heapBase < code.length then
    .error (.programTooLarge code.length machine.heapBase)
  else if code.getLast? ≠ some .halt then
    .error .missingHalt
  else
    .ok ()

/-- Writes instructions to the cells from an address on. -/
def place (machine : Machine) (address : Nat) : List Instruction -> Machine
  | [] => machine
  | instruction :: rest =>
      (machine.write address (.code instruction)).place (address + 1) rest

/-- Copies a program to the cells from address 0 on. -/
def load (machine : Machine) (code : List Instruction) :
    Except MachineError Machine :=
  (machine.check code).map fun _ =>
    { machine.place 0 code with codeLength := code.length }

theorem word?_place (machine : Machine) (address other : Nat)
    (code : List Instruction) :
    (machine.place address code).word? other =
      if h : address ≤ other ∧ other - address < code.length then
        some (.code code[other - address])
      else machine.word? other := by
  induction code generalizing machine address with
  | nil => simp [place]
  | cons instruction rest ih =>
      rw [place, ih, word?_write]
      rcases Nat.lt_trichotomy other address with hfront | rfl | hbehind
      · rw [dif_neg (by omega), if_neg (by omega), dif_neg (by omega)]
      · rw [dif_neg (by omega), if_pos rfl, dif_pos (by simp)]
        simp
      · have hstep : other - address = other - (address + 1) + 1 := by omega
        simp only [hstep, List.length_cons, List.getElem_cons_succ,
          Nat.add_lt_add_iff_right, Nat.ne_of_lt hbehind, if_false,
          Nat.succ_le_iff, hbehind, Nat.le_of_lt hbehind, true_and]

/-!
## The heap
-/

/-- The address that a reservation of `count` cells would get. -/
def nextHeapAddress (machine : Machine) (count : Nat) :
    Except MachineError Nat :=
  if machine.heap + count ≤ machine.stack then
    .ok machine.heap
  else
    .error (.heapExhausted count machine.heap machine.stack)

/-- Reserves `count` cells in a row; gives the machine and the first address. -/
def allocate (machine : Machine) (count : Nat) :
    Except MachineError (Machine × Nat) :=
  (machine.nextHeapAddress count).map fun address =>
    ({ machine with heap := machine.heap + count }, address)

end Machine

end LineCalc
