import LineCalc.Proofs.Machine.Interpretation
import LineCalc.Proofs.Tree.Registers

/-!
# Programs and the registers they start with

Code that reads no register before it has written it does the same whatever the
registers hold at its start: the registers that it has written so far and all of
memory agree after every instruction.  So do the programs of lines, which store
their value at the very end, where it cannot erase an instruction that is still
to come but `halt`.
-/

namespace LineCalc

open Instruction (written written_append written_singleton ReadsWritten)

namespace Machine

/-- A machine that differs from another one at most in registers outside of a
list. -/
structure AgreesOn (machine : Machine) (known : List Nat)
    (other : Machine) : Prop where
  registers : forall index, index ∈ known ->
    other.register index = machine.register index
  rest : other = { machine with registers := other.registers }

namespace AgreesOn

variable {machine other : Machine} {known : List Nat}

theorem memory (h : machine.AgreesOn known other) :
    other.memory = machine.memory := by
  have hrest := congrArg Machine.memory h.rest
  exact hrest

theorem read? (h : machine.AgreesOn known other) (address : Nat) :
    other.read? address = machine.read? address := by
  rw [Machine.read?, Machine.read?, word?, word?, h.memory]

theorem setRegister (h : machine.AgreesOn known other) (register : Nat)
    {value same : Binary64} (hvalue : same = value) :
    (machine.setRegister register value).AgreesOn (known ++ [register])
      (other.setRegister register same) := by
  subst same
  constructor
  · intro index hindex
    rw [register_setRegister, register_setRegister]
    split
    · rfl
    · rename_i hne
      rcases List.mem_append.mp hindex with hknown | hlast
      · exact h.registers index hknown
      · exact absurd (List.mem_singleton.mp hlast).symm hne
  · exact congrArg (Machine.setRegister · register value) h.rest

theorem store (h : machine.AgreesOn known other) (address : Nat)
    {value same : Binary64} (hvalue : same = value) :
    (machine.write address (.data value)).AgreesOn known
      (other.write address (.data same)) := by
  subst same
  constructor
  · intro index hindex
    rw [register_write, register_write, h.registers index hindex]
  · exact congrArg (Machine.write · address (.data value)) h.rest

theorem perform (h : machine.AgreesOn known other) {instruction : Instruction}
    (hsources : forall register, register ∈ instruction.sources ->
      register ∈ known) :
    (machine.perform instruction).AgreesOn (known ++ instruction.target?.toList)
      (other.perform instruction) := by
  have hregister : forall register, register ∈ instruction.sources ->
      other.register register = machine.register register :=
    fun register hregister => h.registers register (hsources register hregister)
  cases instruction with
  | loadImmediate register value => exact h.setRegister register rfl
  | load register address =>
      exact h.setRegister register (by rw [h.read? address])
  | store address register =>
      simp only [Instruction.target?, Option.toList_none, List.append_nil]
      exact h.store address (hregister register List.mem_cons_self)
  | storeImmediate address value =>
      simp only [Instruction.target?, Option.toList_none, List.append_nil]
      exact h.store address rfl
  | move source target =>
      exact h.setRegister target (hregister source List.mem_cons_self)
  | binary op left right target =>
      have hleft := hregister left List.mem_cons_self
      have hright := hregister right (List.mem_cons_of_mem _ List.mem_cons_self)
      exact h.setRegister target (by rw [hleft, hright])
  | halt =>
      simp only [Instruction.target?, Option.toList_none, List.append_nil]
      exact h

theorem performAll {code : List Instruction} (hcode : ReadsWritten code)
    (h : machine.AgreesOn [] other) :
    (machine.performAll code).AgreesOn (written code)
      (other.performAll code) := by
  induction hcode with
  | nil => exact h
  | concat _ hsources ih =>
      rw [performAll_append, performAll_append, written_append,
        written_singleton]
      exact ih.perform hsources

end AgreesOn

/-!
## Stores at the end of a program
-/

/-- A program whose last instruction before `halt` is the only one that may
store is performed from first to last, even if the store erases a part of the
program. -/
theorem execute_eq_performAll_concat {machine : Machine}
    {code : List Instruction} {last : Instruction}
    (hcode : machine.HoldsCode 0 (code ++ [last, .halt]))
    (hlength : machine.codeLength = code.length + 2)
    (hcalculates : forall instruction, instruction ∈ code ->
      instruction.Calculates) (hlast : last ≠ .halt) :
    machine.execute =
      (machine.performAll (code ++ [last]),
        (machine.performAll (code ++ [last])).register 0) := by
  have hapart (bound : Nat) :
      forall instruction, instruction ∈ code ->
        forall target, instruction.storeTarget? = some target ->
          bound ≤ target := by
    intro instruction hmem target htarget
    rw [(hcalculates instruction hmem).right] at htarget
    cases htarget
  have hlater : (machine.performAll code).HoldsCode 0 (code ++ [last, .halt]) :=
    holdsCode_performAll hcode (hapart _)
  have hkept : (machine.performAll code).codeLength = code.length + 2 := by
    rw [performAll_eq, ← hlength]
  have hblock : Execution.run ⟨machine, 0⟩ =
      Execution.run ⟨machine.performAll code, code.length⟩ := by
    have hrun := Execution.run_block hcode.left (by omega)
      (fun instruction hmem => (hcalculates instruction hmem).left) (hapart _)
    rwa [Nat.zero_add] at hrun
  have hcell : (machine.performAll code).word? code.length =
      some (.code last) := by
    simpa using hlater code.length last (by simp)
  have hhalt : (machine.performAll code).word? (code.length + 1) =
      some (.code .halt) := by
    simpa using hlater (code.length + 1) .halt (by simp)
  have hstep := Execution.step?_of_code (by omega) hcell hlast
  have hend : ((machine.performAll code).perform last).codeLength =
      code.length + 2 := by
    rw [codeLength_perform, hkept]
  rw [performAll_append, performAll_cons, performAll_nil, execute, hblock,
    Execution.run_of_step hstep]
  -- The store may have hit the `halt`: then its cell is passed over, and the
  -- program is at its end all the same.
  rcases word?_perform_or (machine.performAll code) last (code.length + 1) with
    hsame | ⟨value, hdata⟩
  · rw [hhalt] at hsame
    rw [Execution.run_of_stop (Execution.step?_of_halt hsame)]
  · rw [Execution.run_of_step (Execution.step?_of_data (by omega) hdata),
      Execution.run_of_stop (Execution.step?_of_length_le (Nat.le_of_eq hend))]

theorem execute_program {machine : Machine} {address : String -> Nat}
    {statement : Statement}
    (hcode : machine.HoldsCode 0 (statement.program address 0))
    (hlength : machine.codeLength = (statement.program address 0).length) :
    machine.execute =
      (machine.performAll (statement.steps address),
        (machine.performAll (statement.steps address)).register 0) := by
  have hcalculates : forall instruction,
      instruction ∈ statement.body.code address 0 1 ->
      instruction.Calculates :=
    fun instruction hmem => statement.body.calculates_code 0 1 hmem
  rcases statement with ⟨binding, body⟩
  cases binding with
  | none =>
      rw [Statement.program_eq_steps] at hcode hlength
      apply execute_eq_performAll hcode (by simpa using hlength)
      · intro instruction hmem
        exact Statement.ne_halt_of_mem_steps hmem
      · intro instruction hmem target htarget
        rcases Statement.storeTarget_of_mem_steps hmem htarget with
          ⟨_, hnone, _⟩
        cases hnone
  | some binding =>
      have hprogram : Statement.program address 0 ⟨some binding, body⟩ =
          body.code address 0 1 ++ [.store binding.address 0, .halt] := by
        simp [Statement.program]
      rw [hprogram] at hcode hlength
      exact execute_eq_performAll_concat hcode
        (by simpa using hlength) hcalculates (by simp)

end Machine

end LineCalc
