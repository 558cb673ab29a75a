import LineCalc.Proofs.Machine.Agreement
import LineCalc.Proofs.Statement.Acceptance
import LineCalc.Token.Scan
import Mathlib.Data.List.Nodup

/-!
# How the program of a line uses its registers

Registers are handed out while a line is compiled.  Each of them is written once
and, but for the first one, read once and later.  The first one takes the value
of the line.  Since nothing is read that the program has not written, what
registers hold when it starts does not matter.
-/

namespace LineCalc

open Instruction (written read ReadsWritten mem_written mem_read)

def Binding.ending : Option Binding -> List Instruction
  | none => [.halt]
  | some binding => [.store binding.address 0, .halt]

/-- A program that works in so many registers uses each of them once. -/
structure Compiled.UsesRegistersOnce (compiled : Compiled)
    (registers : Nat) : Prop where
  writtenOnce : forall register, register < registers ->
    (written compiled.code).count register = 1
  readOnce : forall register, register ≠ 0 -> register < registers ->
    (read compiled.code).count register = 1
  bounded : forall instruction register, instruction ∈ compiled.code ->
    instruction.target? = some register ∨ register ∈ instruction.sources ->
    register < registers
  ordered : forall (i j register : Nat) (writer reader : Instruction),
    compiled.code[i]? = some writer -> writer.target? = some register ->
    compiled.code[j]? = some reader -> register ∈ reader.sources -> i < j
  /-- All but the end of a program calculates in registers, and its last
  instruction moves the value to register 0. -/
  shape : exists calculation source,
    compiled.code = calculation ++
        .move source 0 :: Binding.ending compiled.binding ∧
      forall instruction, instruction ∈ calculation -> instruction.Calculates
  result : forall instruction, instruction ∈ compiled.code ->
    0 ∈ instruction.sources ->
    exists binding, compiled.binding = some binding ∧
      instruction = .store binding.address 0
  oblivious : forall (machine loaded : Machine) registers,
    machine.load compiled.code = .ok loaded ->
      ({ loaded with registers := registers } : Machine).execute.2 =
        loaded.execute.2 ∧
      ({ loaded with registers := registers } : Machine).execute.1.memory =
        loaded.execute.1.memory

namespace Statement

variable (address : String -> Nat) (statement : Statement)

/-!
## Registers of programs
-/

theorem program_eq_code :
    statement.program address 0 =
      statement.body.code address 0 1 ++ Binding.ending statement.binding := by
  rcases statement with ⟨binding, body⟩
  cases binding <;> simp [program, Binding.ending]

theorem program_eq_accumulate :
    statement.program address 0 =
      statement.body.accumulate address 1 ++
        .move (statement.body.accumulator 1) 0 ::
          Binding.ending statement.binding := by
  rw [program_eq_code, Expression.code, List.append_assoc,
    List.singleton_append]

theorem written_ending (binding : Option Binding) :
    written (Binding.ending binding) = [] := by
  cases binding <;> rfl

theorem perm_written_program :
    (written (statement.program address 0)).Perm
      (List.range (1 + statement.body.registers)) := by
  have hbody := statement.body.perm_written_code address 0 1
  rw [program_eq_code, Instruction.written_append, written_ending,
    List.append_nil, List.range_eq_range', Nat.add_comm, List.range'_succ]
  exact hbody

theorem nodup_written_program : (written (statement.program address 0)).Nodup :=
  (statement.perm_written_program address).nodup_iff.mpr List.nodup_range

theorem readsWritten_steps : ReadsWritten (statement.steps address) := by
  have hbody := statement.body.readsWritten_code address 0 1
  have hvalue : 0 ∈ written (statement.body.code address 0 1) :=
    (statement.body.perm_written_code address 0 1).mem_iff.mpr List.mem_cons_self
  rw [steps]
  cases statement.binding with
  | none => simpa using hbody
  | some binding =>
      refine hbody.concat ?_
      intro register hregister
      rwa [List.mem_singleton.mp hregister]

theorem readsWritten_program : ReadsWritten (statement.program address 0) := by
  rw [program_eq_steps]
  exact (statement.readsWritten_steps address).concat
    (by simp [Instruction.sources])

theorem count_read_program {register : Nat} (hne : register ≠ 0) :
    (read (statement.program address 0)).count register =
      (List.range' 1 statement.body.registers).count register := by
  have hbody := (statement.body.perm_read_code address 0 1).count_eq register
  rw [program_eq_code, Instruction.read_append, List.count_append, hbody]
  cases statement.binding with
  | none => rfl
  | some binding =>
      have hstore : (read (Binding.ending (some binding))).count register = 0 :=
        List.count_eq_zero.mpr fun hmem => hne (List.mem_singleton.mp hmem)
      rw [hstore, Nat.add_zero]

theorem eq_store_of_mem_program {instruction : Instruction}
    (hmem : instruction ∈ statement.program address 0)
    (hsource : 0 ∈ instruction.sources) :
    exists binding, statement.binding = some binding ∧
      instruction = .store binding.address 0 := by
  rw [program_eq_code] at hmem
  rcases List.mem_append.mp hmem with hbody | hend
  · have hrange :=
      (statement.body.perm_read_code address 0 1).mem_iff.mp
        (mem_read hbody hsource)
    have hle := List.left_le_of_mem_range' hrange
    exact absurd hle (by omega)
  · cases hbinding : statement.binding with
    | none =>
        rw [hbinding, Binding.ending, List.mem_singleton] at hend
        rw [hend] at hsource
        cases hsource
    | some binding =>
        rw [hbinding, Binding.ending, List.mem_cons, List.mem_singleton] at hend
        rcases hend with hstore | hhalt
        · exact ⟨binding, rfl, hstore⟩
        · rw [hhalt] at hsource
          cases hsource

theorem lt_registers_of_mem_program {instruction : Instruction} {register : Nat}
    (hmem : instruction ∈ statement.program address 0)
    (hregister : instruction.target? = some register ∨
      register ∈ instruction.sources) :
    register < 1 + statement.body.registers := by
  have hwritten : register ∈ written (statement.program address 0) := by
    rcases hregister with htarget | hsource
    · exact mem_written hmem htarget
    · exact (statement.readsWritten_program address).mem_written_of_mem_read
        (mem_read hmem hsource)
  exact List.mem_range.mp
    ((statement.perm_written_program address).mem_iff.mp hwritten)

/-!
## Runs from other registers
-/

/-- A loaded program gives the same result and leaves the same memory, whatever
the registers hold before it runs. -/
theorem execute_of_registers {machine loaded : Machine}
    (hload : machine.load (statement.program address 0) = .ok loaded)
    (registers : Std.TreeMap Nat Binary64) :
    ({ loaded with registers := registers } : Machine).execute.2 =
        loaded.execute.2 ∧
      ({ loaded with registers := registers } : Machine).execute.1.memory =
        loaded.execute.1.memory := by
  have hloaded := Machine.load_eq_ok hload
  have hcode : loaded.HoldsCode 0 (statement.program address 0) := by
    rw [hloaded]
    exact machine.holdsCode_loaded _
  have hlength : loaded.codeLength = (statement.program address 0).length := by
    rw [hloaded]
    rfl
  have hstart : loaded.AgreesOn [] { loaded with registers := registers } := by
    constructor
    · intro index hindex
      cases hindex
    · rfl
  have hend := hstart.performAll (statement.readsWritten_steps address)
  have hvalue : 0 ∈ written (statement.steps address) := by
    have hprogram := (statement.perm_written_program address).mem_iff.mpr
      (List.mem_range.mpr (Nat.add_pos_left Nat.one_pos _))
    simpa [program_eq_steps, Instruction.target?] using hprogram
  have hother : ({ loaded with registers := registers } : Machine).HoldsCode 0
      (statement.program address 0) := hcode
  rw [Machine.execute_program hcode hlength,
    Machine.execute_program hother hlength]
  exact ⟨hend.registers 0 hvalue, hend.memory⟩

end Statement

namespace Machine

variable {machine : Machine} {symbols : SymbolTable} {maxDepth : Nat}
  {stream : TokenStream} {compiled : Compiled}

/-- A line that compiles where no register is in use compiles to a program that
uses every register that has been handed out for it once, and that stores
exactly what the line defines. -/
theorem usesRegistersOnce_of_compile (hidle : machine.registersInUse = 0)
    (hcompile : (machine.compile symbols maxDepth stream).2 = .ok compiled) :
    compiled.UsesRegistersOnce
      (machine.compile symbols maxDepth stream).1.registersInUse ∧
      compiled.binding.map Binding.name =
        Token.definedName? stream.lineTokens := by
  rcases compile_eq_ok_iff.mp hcompile with ⟨statement, hparse, hcompiled⟩
  rw [hidle] at hcompiled
  subst hcompiled
  refine ⟨?_, (definedName?_of_parse hparse).symm⟩
  rw [registersInUse_compile hparse, hidle, Nat.zero_add]
  have hwritten :=
    statement.perm_written_program (machine.scope symbols maxDepth).address
  constructor
  · intro register hregister
    rw [Statement.compiled, hwritten.count_eq]
    exact List.count_eq_one_of_mem List.nodup_range
      (List.mem_range.mpr hregister)
  · intro register hne hregister
    rw [Statement.compiled, Statement.count_read_program _ _ hne]
    apply List.count_eq_one_of_mem List.nodup_range'
    rw [List.mem_range'_1]
    exact ⟨Nat.pos_of_ne_zero hne, hregister⟩
  · intro instruction register hmem hregister
    exact statement.lt_registers_of_mem_program _ hmem hregister
  · intro i j register writer reader hwriter htarget hreader hsource
    exact (statement.readsWritten_program _).lt
      (statement.nodup_written_program _) hwriter
      hreader htarget hsource
  · exact ⟨_, _, statement.program_eq_accumulate _,
      statement.body.calculates_accumulate _ 1⟩
  · intro instruction hmem hsource
    exact statement.eq_store_of_mem_program _ hmem hsource
  · intro other loaded registers hload
    exact statement.execute_of_registers _ hload registers

/-- A redefinition with parentheses in front of a quotient. -/
theorem usesRegistersOnce_of_nested_definition :
    let compiled : Compiled :=
      ⟨[.load 4 1000, .move 4 3,
        .loadImmediate 6 (.ofBits 0x3ff0000000000000), .move 6 5,
          .binary (.additive .minus) 3 5 7, .move 7 2, .load 8 1000,
          .binary (.multiplicative .over) 2 8 9, .move 9 1, .move 1 0,
          .store 1000 0, .halt],
        some (.existing "x" 1000), 10⟩
    let result := (Machine.new .standard).compile ⟨[("x", 1000)]⟩ 256
      (.scan "def x = (x - 1) / x")
    result.2 = .ok compiled ∧ compiled.UsesRegistersOnce 10 ∧
      some "x" =
        Token.definedName?
          (TokenStream.scan "def x = (x - 1) / x").lineTokens := by
  intro compiled result
  have hcompile : result.2 = .ok compiled := by decide +kernel
  have hcount : result.1.registersInUse = 10 := by decide +kernel
  have h := usesRegistersOnce_of_compile rfl hcompile
  rw [hcount] at h
  exact ⟨hcompile, h⟩

end Machine

end LineCalc
