import LineCalc.Machine.Run

/-!
# Blocks of code

As long as no instruction halts or writes to the code, running from the start of
a block performs its instructions in order.  This module relates the run, which
fetches every instruction from memory, to a fold over the block.
-/

namespace LineCalc

def Instruction.storeTarget? : Instruction -> Option Nat
  | .store address _ => some address
  | .storeImmediate address _ => some address
  | _ => none

namespace Machine

def performAll (machine : Machine) (code : List Instruction) : Machine :=
  code.foldl perform machine

def HoldsCode (machine : Machine) (address : Nat)
    (code : List Instruction) : Prop :=
  forall i instruction, code[i]? = some instruction ->
    machine.word? (address + i) = some (.code instruction)

@[simp] theorem performAll_nil (machine : Machine) :
    machine.performAll [] = machine := rfl

@[simp] theorem performAll_cons (machine : Machine) (instruction : Instruction)
    (rest : List Instruction) :
    machine.performAll (instruction :: rest) =
      (machine.perform instruction).performAll rest := rfl

@[simp] theorem performAll_append (machine : Machine)
    (left right : List Instruction) :
    machine.performAll (left ++ right) =
      (machine.performAll left).performAll right :=
  List.foldl_append

/-!
## What instructions leave alone
-/

theorem perform_eq (machine : Machine) (instruction : Instruction) :
    machine.perform instruction =
      { machine with
        memory := (machine.perform instruction).memory
        registers := (machine.perform instruction).registers } := by
  cases instruction <;> rfl

theorem performAll_eq (machine : Machine) (code : List Instruction) :
    machine.performAll code =
      { machine with
        memory := (machine.performAll code).memory
        registers := (machine.performAll code).registers } := by
  induction code generalizing machine with
  | nil => rfl
  | cons instruction rest ih =>
      rw [performAll_cons, ih, perform_eq]

theorem word?_perform {machine : Machine} {instruction : Instruction}
    {address : Nat} (h : instruction.storeTarget? ≠ some address) :
    (machine.perform instruction).word? address = machine.word? address := by
  cases instruction with
  | store target register =>
      have hne : target ≠ address := fun heq => h (congrArg some heq)
      simp [perform, hne]
  | storeImmediate target value =>
      have hne : target ≠ address := fun heq => h (congrArg some heq)
      simp [perform, hne]
  | _ => rfl

theorem word?_perform_or (machine : Machine) (instruction : Instruction)
    (address : Nat) :
    (machine.perform instruction).word? address = machine.word? address ∨
      exists value, (machine.perform instruction).word? address =
        some (.data value) := by
  by_cases htarget : instruction.storeTarget? = some address
  · cases instruction with
    | store target register =>
        have hsame : target = address := Option.some.inj htarget
        exact Or.inr ⟨machine.register register, by simp [perform, hsame]⟩
    | storeImmediate target value =>
        have hsame : target = address := Option.some.inj htarget
        exact Or.inr ⟨value, by simp [perform, hsame]⟩
    | _ => cases htarget
  · exact Or.inl (word?_perform htarget)

theorem word?_performAll {machine : Machine} {code : List Instruction}
    {address : Nat} (h : forall instruction, instruction ∈ code ->
      instruction.storeTarget? ≠ some address) :
    (machine.performAll code).word? address = machine.word? address := by
  induction code generalizing machine with
  | nil => rfl
  | cons instruction rest ih =>
      rw [performAll_cons,
        ih (fun other hother => h other (List.mem_cons_of_mem _ hother)),
        word?_perform (h instruction List.mem_cons_self)]

theorem memory_perform {machine : Machine} {instruction : Instruction}
    (h : instruction.storeTarget? = none) :
    (machine.perform instruction).memory = machine.memory := by
  cases instruction with
  | store target register => cases h
  | storeImmediate target value => cases h
  | _ => rfl

theorem memory_performAll {machine : Machine} {code : List Instruction}
    (h : forall instruction, instruction ∈ code ->
      instruction.storeTarget? = none) :
    (machine.performAll code).memory = machine.memory := by
  induction code generalizing machine with
  | nil => rfl
  | cons instruction rest ih =>
      rw [performAll_cons,
        ih (fun other hother => h other (List.mem_cons_of_mem _ hother)),
        memory_perform (h instruction List.mem_cons_self)]

/-!
## Code in memory
-/

theorem HoldsCode.tail {machine : Machine} {address : Nat} {first : Instruction}
    {rest : List Instruction} (h : machine.HoldsCode address (first :: rest)) :
    machine.HoldsCode (address + 1) rest := by
  intro i instruction hi
  have hcell := h (i + 1) instruction (by simpa using hi)
  rwa [show address + (i + 1) = address + 1 + i by omega] at hcell

theorem HoldsCode.left {machine : Machine} {address : Nat}
    {left right : List Instruction}
    (h : machine.HoldsCode address (left ++ right)) :
    machine.HoldsCode address left := by
  intro i instruction hi
  have hbound : i < left.length := (List.getElem?_eq_some_iff.mp hi).choose
  exact h i instruction (by rw [List.getElem?_append_left hbound, hi])

theorem holdsCode_perform {machine : Machine} {address : Nat}
    {code : List Instruction} {instruction : Instruction}
    (h : machine.HoldsCode address code)
    (hstore : forall target, instruction.storeTarget? = some target ->
      address + code.length ≤ target) :
    (machine.perform instruction).HoldsCode address code := by
  intro i cell hi
  have hbound : i < code.length := (List.getElem?_eq_some_iff.mp hi).choose
  rw [word?_perform, h i cell hi]
  intro htarget
  have hfar := hstore _ htarget
  omega

theorem holdsCode_performAll {machine : Machine} {address : Nat}
    {code block : List Instruction} (h : machine.HoldsCode address code)
    (hstore : forall instruction, instruction ∈ block -> forall target,
      instruction.storeTarget? = some target ->
      address + code.length ≤ target) :
    (machine.performAll block).HoldsCode address code := by
  induction block generalizing machine with
  | nil => exact h
  | cons instruction rest ih =>
      apply ih (holdsCode_perform h (hstore instruction List.mem_cons_self))
      intro other hother
      exact hstore other (List.mem_cons_of_mem _ hother)

theorem holdsCode_place (machine : Machine) (address : Nat)
    (code : List Instruction) :
    (machine.place address code).HoldsCode address code := by
  intro i instruction hi
  rcases List.getElem?_eq_some_iff.mp hi with ⟨hbound, hget⟩
  have hoffset : address + i - address = i := by omega
  have hinside : address ≤ address + i ∧
      address + i - address < code.length := by omega
  rw [word?_place, dif_pos hinside]
  simp only [hoffset, hget]

end Machine

/-!
## Runs
-/

namespace Execution

theorem run_of_step {execution next : Execution}
    (h : execution.step? = some next) :
    execution.run = next.run := by
  rw [run]
  split
  · rename_i hnone
    rw [h] at hnone
    cases hnone
  · rename_i other hsome
    rw [h, Option.some.injEq] at hsome
    rw [hsome]

theorem run_of_stop {execution : Execution} (h : execution.step? = none) :
    execution.run = execution := by
  rw [run]
  split
  · rfl
  · rename_i other hsome
    rw [h] at hsome
    cases hsome

theorem step?_of_code {machine : Machine} {pc : Nat} {instruction : Instruction}
    (hpc : pc < machine.codeLength)
    (hcell : machine.word? pc = some (.code instruction))
    (hhalt : instruction ≠ .halt) :
    step? ⟨machine, pc⟩ = some ⟨machine.perform instruction, pc + 1⟩ := by
  cases instruction with
  | halt => exact absurd rfl hhalt
  | _ => simp [step?, hpc, hcell]

theorem step?_of_halt {machine : Machine} {pc : Nat}
    (hcell : machine.word? pc = some (.code .halt)) :
    step? ⟨machine, pc⟩ = none := by
  simp [step?, hcell]

/-- A block that neither halts nor writes to the program is performed in
order. -/
theorem run_block {machine : Machine} {pc : Nat} {code : List Instruction}
    (hcode : machine.HoldsCode pc code)
    (hfits : pc + code.length ≤ machine.codeLength)
    (hhalt : forall instruction, instruction ∈ code -> instruction ≠ .halt)
    (hstore : forall instruction, instruction ∈ code -> forall target,
      instruction.storeTarget? = some target -> machine.codeLength ≤ target) :
    run ⟨machine, pc⟩ = run ⟨machine.performAll code, pc + code.length⟩ := by
  induction code generalizing machine pc with
  | nil => rfl
  | cons instruction rest ih =>
      have hmem : instruction ∈ instruction :: rest := List.mem_cons_self
      rw [List.length_cons] at hfits
      have hstep : step? ⟨machine, pc⟩ =
          some ⟨machine.perform instruction, pc + 1⟩ := by
        apply step?_of_code (by omega) _ (hhalt instruction hmem)
        simpa using hcode 0 instruction rfl
      have hrest : (machine.perform instruction).HoldsCode (pc + 1) rest := by
        apply Machine.holdsCode_perform hcode.tail
        intro target htarget
        have hfar := hstore instruction hmem target htarget
        omega
      rw [run_of_step hstep,
        ih hrest (by rw [Machine.codeLength_perform]; omega)
        (fun other hother => hhalt other (List.mem_cons_of_mem _ hother))
        (by
          intro other hother
          rw [Machine.codeLength_perform]
          exact hstore other (List.mem_cons_of_mem _ hother))]
      rw [Machine.performAll_cons, List.length_cons, Nat.add_assoc,
        Nat.add_comm 1]

end Execution

namespace Machine

/-- A program that ends with its only `halt` and writes to no cell of its own is
performed from its first instruction to its last. -/
theorem execute_eq_performAll {machine : Machine} {code : List Instruction}
    (hcode : machine.HoldsCode 0 (code ++ [.halt]))
    (hlength : machine.codeLength = code.length + 1)
    (hhalt : forall instruction, instruction ∈ code -> instruction ≠ .halt)
    (hstore : forall instruction, instruction ∈ code -> forall target,
      instruction.storeTarget? = some target -> machine.codeLength ≤ target) :
    machine.execute =
      (machine.performAll code, (machine.performAll code).register 0) := by
  have hrun := Execution.run_block hcode.left (by omega) hhalt hstore
  have hkept : (machine.performAll code).HoldsCode 0 (code ++ [.halt]) := by
    apply holdsCode_performAll hcode
    intro instruction hmem target htarget
    have hfar := hstore instruction hmem target htarget
    rw [List.length_append, List.length_singleton]
    omega
  have hstop : Execution.step? ⟨machine.performAll code, 0 + code.length⟩ =
      none := by
    apply Execution.step?_of_halt
    exact hkept code.length .halt (by simp)
  simp only [execute, hrun, Execution.run_of_stop hstop]

end Machine

end LineCalc
