import LineCalc.Machine.Interpretation
import LineCalc.Proofs.Machine.Program

/-!
# Programs that overwrite themselves

A program may store numbers in its own cells and so erase instructions, its
`halt` among them.  The machine, which fetches every instruction from memory,
still does what the program read straight through says.  The relation between
the two that every step keeps is that memory is the loaded one with the numbers
stored so far.
-/

namespace LineCalc

/-!
## Steps of an execution
-/

namespace Execution

theorem pc_of_after {execution state : Execution} {count : Nat}
    (h : execution.after count = some state) :
    state.pc = execution.pc + count := by
  induction count generalizing state with
  | zero =>
      cases h
      rfl
  | succ count ih =>
      rcases Option.bind_eq_some_iff.mp h with ⟨middle, hmiddle, hstep⟩
      rw [(pc_of_step? hstep).right.left, ih hmiddle, Nat.add_assoc]

theorem step?_of_length_le {machine : Machine} {pc : Nat}
    (h : machine.codeLength ≤ pc) :
    step? ⟨machine, pc⟩ = none := by
  simp [step?, Nat.not_lt.mpr h]

theorem step?_of_data {machine : Machine} {pc : Nat} {value : Binary64}
    (hpc : pc < machine.codeLength)
    (hcell : machine.word? pc = some (.data value)) :
    step? ⟨machine, pc⟩ = some ⟨machine, pc + 1⟩ := by
  simp [step?, hpc, hcell]

theorem after_of_step {execution next : Execution}
    (h : execution.step? = some next) (count : Nat) :
    execution.after (count + 1) = next.after count := by
  induction count with
  | zero => exact h
  | succ count ih => rw [after, ih, after]

theorem after_run (execution : Execution) :
    exists count, execution.after count = some execution.run ∧
      execution.run.step? = none := by
  induction execution using Execution.run.induct with
  | case1 execution hstop =>
      refine ⟨0, ?_, ?_⟩
      · rw [run_of_stop hstop, after]
      · rw [run_of_stop hstop, hstop]
  | case2 execution next hstep ih =>
      rcases ih with ⟨count, hafter, hstop⟩
      refine ⟨count + 1, ?_, ?_⟩
      · rw [run_of_step hstep, after_of_step hstep, hafter]
      · rw [run_of_step hstep, hstop]

end Execution

/-!
## What a machine has in common with an interpretation
-/

/-- A machine is the loaded one up to what the interpretation of its program has
done: stores have turned cells into data, and registers have been set. -/
structure Interpretation.Describes (interpretation : Interpretation)
    (loaded machine : Machine) : Prop where
  registers : forall index,
    machine.register index = interpretation.registers index
  cells : forall address, machine.word? address =
    match interpretation.stores.lookup address with
    | some value => some (.data value)
    | none => loaded.word? address
  rest : machine = { loaded with
    memory := machine.memory, registers := machine.registers }

namespace Interpretation.Describes

variable {interpretation : Interpretation} {loaded machine : Machine}

theorem read (h : interpretation.Describes loaded machine)
    {given : Nat -> Binary64}
    (hgiven : forall address, (loaded.read? address).getD .nan = given address)
    (address : Nat) :
    (machine.read? address).getD .nan = interpretation.read given address := by
  rw [Machine.read?, h.cells, Interpretation.read, ← hgiven, Machine.read?]
  cases interpretation.stores.lookup address <;> rfl

theorem advance (h : interpretation.Describes loaded machine) :
    interpretation.advance.Describes loaded machine :=
  ⟨h.registers, h.cells, h.rest⟩

theorem setRegister (h : interpretation.Describes loaded machine)
    (register : Nat) {value other : Binary64} (hvalue : value = other) :
    (interpretation.setRegister register other).Describes loaded
      (machine.setRegister register value) := by
  subst other
  constructor
  · intro index
    rw [Machine.register_setRegister, h.registers]
    rfl
  · intro address
    rw [Machine.word?_setRegister, h.cells]
    rfl
  · exact congrArg (Machine.setRegister · register value) h.rest

theorem store (h : interpretation.Describes loaded machine) (address : Nat)
    {value other : Binary64} (hvalue : value = other) :
    (interpretation.store address other).Describes loaded
      (machine.write address (.data value)) := by
  subst other
  constructor
  · intro index
    rw [Machine.register_write, h.registers]
    rfl
  · intro cell
    rw [Machine.word?_write, Interpretation.store, List.lookup_cons]
    by_cases hcell : address = cell
    · simp [hcell]
    · rw [if_neg hcell, beq_eq_false_iff_ne.mpr (Ne.symm hcell)]
      exact h.cells cell
  · exact congrArg (Machine.write · address (.data value)) h.rest

theorem perform (h : interpretation.Describes loaded machine)
    {given : Nat -> Binary64}
    (hgiven : forall address, (loaded.read? address).getD .nan = given address)
    (instruction : Instruction) :
    (interpretation.perform given instruction).Describes loaded
      (machine.perform instruction) := by
  cases instruction with
  | loadImmediate register value => exact h.setRegister register rfl
  | load register address =>
      exact h.setRegister register (h.read hgiven address)
  | store address register => exact h.store address (h.registers register)
  | storeImmediate address value => exact h.store address rfl
  | move source target => exact h.setRegister target (h.registers source)
  | binary op left right target =>
      exact h.setRegister target (by rw [h.registers, h.registers])
  | halt => exact h

theorem codeLength (h : interpretation.Describes loaded machine) :
    machine.codeLength = loaded.codeLength := by
  have hrest := congrArg Machine.codeLength h.rest
  exact hrest

end Interpretation.Describes

namespace Interpretation

@[simp] theorem next_advance (interpretation : Interpretation) :
    interpretation.advance.next = interpretation.next + 1 := rfl

@[simp] theorem next_perform (given : Nat -> Binary64)
    (interpretation : Interpretation) (instruction : Instruction) :
    (interpretation.perform given instruction).next = interpretation.next := by
  cases instruction <;> rfl

theorem next_run_le (given : Nat -> Binary64) (rest : List Instruction)
    (interpretation : Interpretation) :
    (interpretation.run given rest).next ≤
      interpretation.next + rest.length := by
  induction rest generalizing interpretation with
  | nil => exact Nat.le_refl _
  | cons instruction rest ih =>
      have hskipped := ih interpretation.advance
      have hperformed := ih (interpretation.perform given instruction).advance
      simp only [next_advance, next_perform] at hskipped hperformed
      rw [run, List.length_cons]
      split
      · omega
      · split
        · omega
        · omega

/-- The machine runs the rest of its program to what the interpretation comes
to. -/
theorem describes_run {given : Nat -> Binary64} {loaded machine : Machine}
    {rest : List Instruction} {interpretation : Interpretation}
    (hgiven : forall address, (loaded.read? address).getD .nan = given address)
    (h : interpretation.Describes loaded machine)
    (hcode : loaded.HoldsCode interpretation.next rest)
    (hlength : loaded.codeLength = interpretation.next + rest.length) :
    exists after,
      Execution.run ⟨machine, interpretation.next⟩ =
          ⟨after, (interpretation.run given rest).next⟩ ∧
        (interpretation.run given rest).Describes loaded after := by
  induction rest generalizing machine interpretation with
  | nil =>
      refine ⟨machine, Execution.run_of_stop ?_, h⟩
      apply Execution.step?_of_length_le
      rw [h.codeLength, hlength]
      exact Nat.le_refl _
  | cons instruction rest ih =>
      have hpc : interpretation.next < machine.codeLength := by
        rw [h.codeLength, hlength, List.length_cons]
        omega
      have hlater : loaded.codeLength =
          interpretation.next + 1 + rest.length := by
        rw [hlength, List.length_cons]
        omega
      have hcell := h.cells interpretation.next
      rw [run]
      cases hstored : interpretation.stores.lookup interpretation.next with
      | some value =>
          -- A store has erased the instruction: the machine finds a number in
          -- its place.
          rw [hstored] at hcell
          rw [Execution.run_of_step (Execution.step?_of_data hpc hcell)]
          exact ih h.advance hcode.tail hlater
      | none =>
          have hinstruction : loaded.word? interpretation.next =
              some (.code instruction) :=
            hcode 0 instruction rfl
          rw [hstored, hinstruction] at hcell
          by_cases hhalt : instruction = .halt
          · subst hhalt
            exact ⟨machine,
              Execution.run_of_stop (Execution.step?_of_halt hcell), h⟩
          · rw [Execution.run_of_step (Execution.step?_of_code hpc hcell hhalt)]
            have hnext := ih (h.perform hgiven instruction).advance
            simp only [next_advance, next_perform] at hnext
            simpa [hhalt] using hnext hcode.tail hlater

end Interpretation

/-!
## Loaded programs
-/

namespace Machine

theorem load_eq_ok {machine loaded : Machine} {code : List Instruction}
    (h : machine.load code = .ok loaded) : loaded = machine.loaded code := by
  unfold load at h
  cases hcheck : machine.check code with
  | error cause =>
      rw [hcheck] at h
      cases h
  | ok _ =>
      rw [hcheck] at h
      exact (Except.ok.inj h).symm

theorem register_loaded (machine : Machine) (code : List Instruction)
    (index : Nat) :
    (machine.loaded code).register index = machine.register index := by
  have hplace :=
    congrArg (fun m : Machine => m.register index) (machine.place_eq 0 code)
  exact hplace

theorem read?_loaded (machine : Machine) (code : List Instruction)
    (address : Nat) :
    ((machine.loaded code).read? address).getD .nan =
      machine.given code address := by
  unfold given
  split
  · rename_i hinside
    have hcell := machine.holdsCode_loaded code address code[address]
      (List.getElem?_eq_getElem hinside)
    rw [Nat.zero_add] at hcell
    rw [read?, hcell]
    rfl
  · rename_i hbehind
    rw [read?, read?, word?_loaded (Nat.not_lt.mp hbehind)]

/-- Executing a loaded program comes to what the program read straight through
comes to, whatever it stores and wherever.  The machine goes through the cells
from address 0 on, one a step, and stops where the interpretation does. -/
theorem execute_eq_interpretation {machine loaded : Machine}
    {code : List Instruction} (hload : machine.load code = .ok loaded) :
    let final :=
      (Interpretation.start machine.register).run (machine.given code) code
    loaded.execute.2 = final.registers 0 ∧
      final.Describes loaded loaded.execute.1 ∧
      final.next ≤ code.length ∧
      (forall count state, Execution.after ⟨loaded, 0⟩ count = some state ->
        state.pc = count) ∧
      Execution.after ⟨loaded, 0⟩ final.next =
        some ⟨loaded.execute.1, final.next⟩ ∧
      Execution.after ⟨loaded, 0⟩ (final.next + 1) = none := by
  rw [load_eq_ok hload]
  have hstart : (Interpretation.start machine.register).Describes
      (machine.loaded code) (machine.loaded code) := by
    exact ⟨machine.register_loaded code, fun _ => rfl, rfl⟩
  have hbound :=
    Interpretation.next_run_le (machine.given code) code
      (.start machine.register)
  rw [Interpretation.start, Nat.zero_add, ← Interpretation.start] at hbound
  rcases Interpretation.describes_run (machine.read?_loaded code) hstart
      (machine.holdsCode_loaded code) (Nat.zero_add code.length).symm with
        ⟨after, hrun, hafter⟩
  rcases Execution.after_run ⟨machine.loaded code, 0⟩ with
    ⟨count, hcount, hstop⟩
  have hpc := Execution.pc_of_after hcount
  have hnext : Execution.run ⟨machine.loaded code, 0⟩ = ⟨after, _⟩ := hrun
  rw [hnext, Nat.zero_add] at hpc
  rw [hnext] at hcount hstop
  subst count
  have hexecute : (machine.loaded code).execute =
      (after, after.register 0) := by
    rw [execute, hnext]
  rw [hexecute]
  refine ⟨hafter.registers 0, hafter, hbound, ?_, hcount, ?_⟩
  · intro count state hstate
    simpa using Execution.pc_of_after hstate
  · rw [Execution.after, hcount]
    exact hstop

/-- A program that puts a number in the place of its second instruction and
later of its `halt`: the former is passed over, the latter does not stop it, and
both numbers can be loaded. -/
theorem execute_overwriting_itself :
    let code : List Instruction :=
      [.storeImmediate 1 (.ofBits 0x4014000000000000),
        .loadImmediate 0 .nan, .load 2 1, .store 5 2, .load 0 5, .halt]
    let loaded := (Machine.new .standard).loaded code
    (Machine.new .standard).load code = .ok loaded ∧
      loaded.execute.2 = .ofBits 0x4014000000000000 ∧
      loaded.execute.1.word? 5 = some (.data (.ofBits 0x4014000000000000)) ∧
      Execution.after ⟨loaded, 0⟩ 7 = none := by
  intro code loaded
  have hload : (Machine.new .standard).load code = .ok loaded := rfl
  rcases execute_eq_interpretation hload with ⟨hresult, hfinal, _, _, _, hstop⟩
  refine ⟨hload, ?_, ?_, hstop⟩
  · rw [hresult]
    rfl
  · rw [hfinal.cells]
    rfl

end Machine

end LineCalc
