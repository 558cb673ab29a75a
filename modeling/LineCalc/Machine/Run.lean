import LineCalc.Machine.Basic

/-!
# Running programs

The machine takes the cells of its program in order of address.  A cell that
holds an instruction is executed; one that a store has turned into data is
passed over.  It stops at `halt` or behind the last cell, and the result is in
register 0.
-/

namespace LineCalc

namespace Machine

/-- What an instruction does to registers and memory.  Loading from a cell
without a number gives NaN. -/
def perform (machine : Machine) : Instruction -> Machine
  | .loadImmediate register value => machine.setRegister register value
  | .load register address =>
      machine.setRegister register ((machine.read? address).getD .nan)
  | .store address register =>
      machine.write address (.data (machine.register register))
  | .storeImmediate address value => machine.write address (.data value)
  | .move source target => machine.setRegister target (machine.register source)
  | .binary op left right target =>
      machine.setRegister target
        (op.apply (machine.register left) (machine.register right))
  | .halt => machine

@[simp] theorem codeLength_perform (machine : Machine)
    (instruction : Instruction) :
    (machine.perform instruction).codeLength = machine.codeLength := by
  cases instruction <;> rfl

end Machine

/-- A machine in the middle of its program. -/
structure Execution where
  machine : Machine
  /-- The address of the next cell. -/
  pc : Nat

namespace Execution

/-- One step, or `none` where the machine stops. -/
def step? (execution : Execution) : Option Execution :=
  if execution.pc < execution.machine.codeLength then
    match execution.machine.word? execution.pc with
    | some (.code .halt) => none
    | some (.code instruction) =>
        some ⟨execution.machine.perform instruction, execution.pc + 1⟩
    | _ => some ⟨execution.machine, execution.pc + 1⟩
  else
    none

theorem pc_of_step? {execution next : Execution}
    (h : execution.step? = some next) :
    execution.pc < execution.machine.codeLength ∧ next.pc = execution.pc + 1 ∧
      next.machine.codeLength = execution.machine.codeLength := by
  unfold step? at h
  split at h
  · split at h
    · simp at h
    · simp only [Option.some.injEq] at h
      subst h
      simp_all
    · simp only [Option.some.injEq] at h
      subst h
      simp_all
  · simp at h

/-- Steps until the machine stops. -/
def run (execution : Execution) : Execution :=
  match _step : execution.step? with
  | none => execution
  | some next => next.run
termination_by execution.machine.codeLength - execution.pc
decreasing_by
  have hpc := pc_of_step? _step
  omega

end Execution

namespace Machine

/-- The machine after its program, and the result. -/
def execute (machine : Machine) : Machine × Binary64 :=
  let final := (Execution.run ⟨machine, 0⟩).machine
  (final, final.register 0)

end Machine

end LineCalc
