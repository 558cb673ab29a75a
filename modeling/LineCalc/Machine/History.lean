import LineCalc.Machine.Run

/-!
# Histories of machines

A machine goes through a sequence of calls.  One that is refused leaves it as it
was.  This module says what becomes of a machine, which cells a history
reserves, and which program it leaves loaded.
-/

namespace LineCalc

/-- What is asked of a machine. -/
inductive MachineCall where
  | check (code : List Instruction)
  | load (code : List Instruction)
  | execute
  | allocate (count : Nat)
  | nextHeapAddress (count : Nat)
  | newRegister
  | resetRegisters

/-- Cells in a row that have been reserved on the heap. -/
structure Reservation where
  address : Nat
  count : Nat

namespace Reservation

def Covers (reservation : Reservation) (cell : Nat) : Prop :=
  reservation.address ≤ cell ∧ cell < reservation.address + reservation.count

def total : List Reservation -> Nat
  | [] => 0
  | first :: rest => first.count + total rest

end Reservation

namespace Machine

def call (machine : Machine) : MachineCall -> Machine
  | .check _ => machine
  | .load code =>
      match machine.load code with
      | .ok loaded => loaded
      | .error _ => machine
  | .execute => machine.execute.1
  | .allocate count =>
      match machine.allocate count with
      | .ok (grown, _) => grown
      | .error _ => machine
  | .nextHeapAddress _ => machine
  | .newRegister => machine.newRegister.1
  | .resetRegisters => machine.resetRegisters

def after (machine : Machine) (calls : List MachineCall) : Machine :=
  calls.foldl call machine

def reserved (machine : Machine) : MachineCall -> List Reservation
  | .allocate count =>
      match machine.allocate count with
      | .ok (_, address) => [⟨address, count⟩]
      | .error _ => []
  | _ => []

/-- What a sequence of calls reserves, in order. -/
def reservations (machine : Machine) : List MachineCall -> List Reservation
  | [] => []
  | first :: rest =>
      machine.reserved first ++ (machine.call first).reservations rest

/-- The program that is loaded after a call, where `program` was before. -/
def programAfter (machine : Machine) (program : List Instruction) :
    MachineCall -> List Instruction
  | .load code =>
      match machine.load code with
      | .ok _ => code
      | .error _ => program
  | _ => program

/-- The program that a sequence of calls leaves loaded: the last one that was
not refused, or the one from before. -/
def lastLoaded (machine : Machine) (program : List Instruction) :
    List MachineCall -> List Instruction
  | [] => program
  | first :: rest =>
      (machine.call first).lastLoaded (machine.programAfter program first) rest

end Machine

end LineCalc
