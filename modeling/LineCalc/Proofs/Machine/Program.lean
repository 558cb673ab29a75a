import LineCalc.Proofs.Tree.Evaluation

/-!
# Programs of lines

The program of a line fits its machine if it is not too long.  Once loaded, it
puts the value of the line into register 0 and into the storage of the variable
that the line defines, and changes no other cell.
-/

namespace LineCalc

namespace Statement

def steps (address : String -> Nat) (statement : Statement) :
    List Instruction :=
  statement.body.code address 0 1 ++
    (statement.binding.map fun binding =>
      Instruction.store binding.address 0).toList

theorem program_eq_steps (address : String -> Nat) (statement : Statement) :
    statement.program address 0 = statement.steps address ++ [.halt] := rfl

theorem mem_steps {address : String -> Nat} {statement : Statement}
    {instruction : Instruction} (h : instruction ∈ statement.steps address) :
    instruction.Calculates ∨ exists binding, statement.binding = some binding ∧
      instruction = .store binding.address 0 := by
  rcases List.mem_append.mp h with hbody | hstore
  · exact Or.inl (statement.body.calculates_code 0 1 hbody)
  · rcases Option.map_eq_some_iff.mp (Option.mem_toList.mp hstore) with
      ⟨binding, hbinding, heq⟩
    exact Or.inr ⟨binding, hbinding, heq.symm⟩

theorem ne_halt_of_mem_steps {address : String -> Nat} {statement : Statement}
    {instruction : Instruction} (h : instruction ∈ statement.steps address) :
    instruction ≠ .halt := by
  rcases mem_steps h with hcalculates | ⟨binding, _, rfl⟩
  · exact hcalculates.left
  · simp

theorem storeTarget_of_mem_steps {address : String -> Nat}
    {statement : Statement} {instruction : Instruction} {target : Nat}
    (h : instruction ∈ statement.steps address)
    (htarget : instruction.storeTarget? = some target) :
    exists binding, statement.binding = some binding ∧
      binding.address = target := by
  rcases mem_steps h with hcalculates | ⟨binding, hbinding, rfl⟩
  · rw [hcalculates.right] at htarget
    cases htarget
  · exact ⟨binding, hbinding, Option.some.inj htarget⟩

end Statement

namespace Machine

/-!
## Loading
-/

theorem place_eq (machine : Machine) (address : Nat) (code : List Instruction) :
    machine.place address code =
      { machine with memory := (machine.place address code).memory } := by
  induction code generalizing machine address with
  | nil => rfl
  | cons instruction rest ih =>
      rw [place, ih]
      rfl

def loaded (machine : Machine) (code : List Instruction) : Machine :=
  { machine.place 0 code with codeLength := code.length }

theorem holdsCode_loaded (machine : Machine) (code : List Instruction) :
    (machine.loaded code).HoldsCode 0 code :=
  holdsCode_place machine 0 code

theorem heapBase_loaded (machine : Machine) (code : List Instruction) :
    (machine.loaded code).heapBase = machine.heapBase := by
  have hplace := congrArg Machine.heapBase (machine.place_eq 0 code)
  exact hplace

theorem heap_loaded (machine : Machine) (code : List Instruction) :
    (machine.loaded code).heap = machine.heap := by
  have hplace := congrArg Machine.heap (machine.place_eq 0 code)
  exact hplace

theorem stack_loaded (machine : Machine) (code : List Instruction) :
    (machine.loaded code).stack = machine.stack := by
  have hplace := congrArg Machine.stack (machine.place_eq 0 code)
  exact hplace

theorem word?_loaded {machine : Machine} {code : List Instruction}
    {address : Nat} (h : code.length ≤ address) :
    (machine.loaded code).word? address = machine.word? address := by
  have hplace := word?_place machine 0 address code
  rw [dif_neg (by omega)] at hplace
  exact hplace

theorem check_program (machine : Machine)
    (address : String -> Nat) (first : Nat) (statement : Statement) :
    machine.check (statement.program address first) =
      if machine.heapBase < (statement.program address first).length then
        .error (.programTooLarge
          (statement.program address first).length machine.heapBase)
      else .ok () := by
  have hlast : (statement.program address first).getLast? = some .halt := by
    rw [Statement.program, List.getLast?_append]
    rfl
  unfold check
  rw [hlast]
  simp

theorem load_program (machine : Machine) (address : String -> Nat) (first : Nat)
    (statement : Statement) :
    machine.load (statement.program address first) =
      if machine.heapBase < (statement.program address first).length then
        .error (.programTooLarge
          (statement.program address first).length machine.heapBase)
      else .ok (machine.loaded (statement.program address first)) := by
  rw [load, check_program]
  split <;> rfl

/-!
## Executing
-/

/-- What the loaded program of a line does to its machine. -/
structure Evaluates (machine : Machine) (address : String -> Nat)
    (statement : Statement) (value : Binary64) (after : Machine) : Prop where
  result : machine.execute = (after, value)
  code : after.HoldsCode 0 (statement.program address 0)
  cells : forall cell, after.word? cell =
    if statement.binding.map Binding.address = some cell then some (.data value)
    else machine.word? cell
  rest : after =
    { machine with memory := after.memory, registers := after.registers }

theorem word?_performAll_steps {machine : Machine} {address : String -> Nat}
    {statement : Statement} {valueOf : String -> Binary64}
    (hsupplies : machine.Supplies address valueOf statement.body.tokens)
    (cell : Nat) :
    (machine.performAll (statement.steps address)).word? cell =
      if statement.binding.map Binding.address = some cell then
        some (.data (statement.body.value valueOf))
      else machine.word? cell := by
  have hbody :
      (machine.performAll (statement.body.code address 0 1)).word? cell =
      machine.word? cell := by
    apply word?_performAll
    intro instruction hmem
    rw [(statement.body.calculates_code 0 1 hmem).right]
    simp
  rw [Statement.steps, performAll_append]
  cases hbinding : statement.binding with
  | none => simpa using hbody
  | some binding =>
      have hvalue := statement.body.register_performAll_code 0 1 hsupplies
      simp [perform, hvalue, hbody]

theorem register_performAll_steps {machine : Machine} {address : String -> Nat}
    {statement : Statement} {valueOf : String -> Binary64}
    (hsupplies : machine.Supplies address valueOf statement.body.tokens) :
    (machine.performAll (statement.steps address)).register 0 =
      statement.body.value valueOf := by
  have hvalue := statement.body.register_performAll_code 0 1 hsupplies
  rw [Statement.steps, performAll_append]
  cases statement.binding with
  | none => exact hvalue
  | some binding => exact hvalue

/-- A program whose variable is stored behind it computes the value of its
line. -/
theorem evaluates_program {machine : Machine} {address : String -> Nat}
    {statement : Statement} {valueOf : String -> Binary64}
    (hcode : machine.HoldsCode 0 (statement.program address 0))
    (hlength : machine.codeLength = (statement.program address 0).length)
    (hstorage : forall binding, statement.binding = some binding ->
      machine.codeLength ≤ binding.address)
    (hsupplies : machine.Supplies address valueOf statement.body.tokens) :
    machine.Evaluates address statement (statement.body.value valueOf)
      (machine.performAll (statement.steps address)) := by
  have hstore : forall instruction, instruction ∈ statement.steps address ->
      forall target, instruction.storeTarget? = some target ->
        machine.codeLength ≤ target := by
    intro instruction hmem target htarget
    rcases Statement.storeTarget_of_mem_steps hmem htarget with
      ⟨binding, hbinding, rfl⟩
    exact hstorage binding hbinding
  rw [Statement.program_eq_steps] at hcode hlength
  constructor
  · rw [execute_eq_performAll hcode (by simpa using hlength)
      (fun instruction hmem => Statement.ne_halt_of_mem_steps hmem) hstore,
      register_performAll_steps hsupplies]
  · rw [Statement.program_eq_steps]
    apply holdsCode_performAll hcode
    intro instruction hmem target htarget
    have hfar := hstore instruction hmem target htarget
    omega
  · exact word?_performAll_steps hsupplies
  · exact performAll_eq machine _

end Machine

end LineCalc
