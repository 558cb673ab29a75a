import LineCalc.Machine.History
import LineCalc.Proofs.Machine.Interpretation

/-!
# The memory map of a machine

Whatever is asked of a machine, its memory keeps to the map that it started
with.  Programs are loaded below the heap base, and reservations follow one
another from the heap base up to the stack.  Each call extends what has been
reserved or replaces the loaded program; the relation between the machine and
these two is what a history keeps.
-/

namespace LineCalc

/-!
## Reservations
-/

namespace Reservation

theorem total_append (left right : List Reservation) :
    total (left ++ right) = total left + total right := by
  induction left with
  | nil => simp [total]
  | cons first rest ih => simp [total, ih, Nat.add_assoc]

def Consecutive (base : Nat) (reserved : List Reservation) : Prop :=
  forall earlier reservation later,
    reserved = earlier ++ reservation :: later ->
    reservation.address = base + total earlier

theorem consecutive_nil (base : Nat) : Consecutive base [] := by
  intro earlier reservation later h
  simp at h

theorem Consecutive.concat {base : Nat} {reserved : List Reservation}
    {last : Reservation} (h : Consecutive base reserved)
    (hlast : last.address = base + total reserved) :
    Consecutive base (reserved ++ [last]) := by
  intro earlier reservation later heq
  rcases List.eq_nil_or_concat later with rfl | ⟨front, other, rfl⟩
  · rcases List.append_inj' heq rfl with ⟨rfl, hsame⟩
    rw [← (List.cons.inj hsame).left]
    exact hlast
  · rw [List.concat_eq_append, ← List.cons_append, ← List.append_assoc] at heq
    rcases List.append_inj' heq rfl with ⟨hfront, _⟩
    exact h earlier reservation front hfront

theorem Consecutive.pairwise {base : Nat} {reserved : List Reservation}
    (h : Consecutive base reserved) :
    reserved.Pairwise fun first second =>
      first.address + first.count ≤ second.address := by
  induction reserved generalizing base with
  | nil => exact List.Pairwise.nil
  | cons first rest ih =>
      have hfirst : first.address = base := h [] first rest rfl
      have hrest : Consecutive (base + first.count) rest := by
        intro earlier reservation later heq
        rw [h (first :: earlier) reservation later
          (by rw [heq, List.cons_append]), total,
          Nat.add_assoc]
      refine List.pairwise_cons.mpr ⟨?_, ih hrest⟩
      intro second hsecond
      rcases List.append_of_mem hsecond with ⟨earlier, later, heq⟩
      rw [hrest earlier second later heq, hfirst]
      exact Nat.le_add_right _ _

end Reservation

/-!
## Executions
-/

namespace Machine

theorem word?_performAll_or (machine : Machine) (code : List Instruction)
    (address : Nat) :
    (machine.performAll code).word? address = machine.word? address ∨
      exists value, (machine.performAll code).word? address =
        some (.data value) := by
  induction code generalizing machine with
  | nil => exact Or.inl rfl
  | cons instruction rest ih =>
      rw [performAll_cons]
      rcases ih (machine.perform instruction) with hsame | hdata
      · rw [hsame]
        exact machine.word?_perform_or instruction address
      · exact Or.inr hdata

end Machine

namespace Execution

theorem exists_performAll_of_step {execution next : Execution}
    (h : execution.step? = some next) :
    exists code, next.machine = execution.machine.performAll code := by
  unfold step? at h
  split at h
  · split at h
    · cases h
    · rename_i instruction _ _
      cases h
      exact ⟨[instruction], rfl⟩
    · cases h
      exact ⟨[], rfl⟩
  · cases h

theorem exists_performAll_run (execution : Execution) :
    exists code, execution.run.machine = execution.machine.performAll code := by
  induction execution using Execution.run.induct with
  | case1 execution hstop => exact ⟨[], by rw [run_of_stop hstop]; rfl⟩
  | case2 execution next hstep ih =>
      rcases exists_performAll_of_step hstep with ⟨first, hfirst⟩
      rcases ih with ⟨rest, hrest⟩
      exact ⟨first ++ rest,
        by rw [run_of_step hstep, hrest, hfirst, Machine.performAll_append]⟩

end Execution

namespace Machine

theorem exists_performAll_execute (machine : Machine) :
    exists code, machine.execute.1 = machine.performAll code :=
  Execution.exists_performAll_run ⟨machine, 0⟩

theorem execute_eq (machine : Machine) :
    machine.execute.1 =
      { machine with
        memory := machine.execute.1.memory
        registers := machine.execute.1.registers } := by
  rcases machine.exists_performAll_execute with ⟨code, hexecute⟩
  rw [hexecute]
  exact performAll_eq machine code

theorem word?_execute_or (machine : Machine) (address : Nat) :
    machine.execute.1.word? address = machine.word? address ∨
      exists value, machine.execute.1.word? address = some (.data value) := by
  rcases machine.exists_performAll_execute with ⟨code, hexecute⟩
  rw [hexecute]
  exact machine.word?_performAll_or code address

/-!
## Loading and allocating
-/

theorem load_eq_ok_iff {machine loaded : Machine} {code : List Instruction} :
    machine.load code = .ok loaded <->
      code.length ≤ machine.heapBase ∧ code.getLast? = some .halt ∧
        loaded = machine.loaded code := by
  constructor
  · intro h
    have hloaded := load_eq_ok h
    unfold load check at h
    split at h
    · cases h
    · split at h
      · cases h
      · rename_i hfits hhalt
        exact ⟨Nat.not_lt.mp hfits, Decidable.not_not.mp hhalt, hloaded⟩
  · intro h
    rcases h with ⟨hfits, hhalt, rfl⟩
    simp only [load, check, Nat.not_lt.mpr hfits, hhalt, ↓reduceIte, ne_eq,
      not_true_eq_false]
    rfl

theorem load_eq_error_iff {machine : Machine} {code : List Instruction}
    {cause : MachineError} :
    machine.load code = .error cause <->
      machine.heapBase < code.length ∧
          cause = .programTooLarge code.length machine.heapBase ∨
        code.length ≤ machine.heapBase ∧ code.getLast? ≠ some .halt ∧
        cause = .missingHalt := by
  unfold load check
  by_cases hlarge : machine.heapBase < code.length
  · simp [hlarge, Nat.not_le.mpr hlarge, Except.map, eq_comm]
  · by_cases hhalt : code.getLast? = some .halt
    · simp [hlarge, hhalt, Except.map]
    · simp [hlarge, hhalt, Nat.not_lt.mp hlarge, Except.map, eq_comm]

theorem allocate_eq_ok_iff {machine grown : Machine} {count address : Nat} :
    machine.allocate count = .ok (grown, address) <->
      machine.heap + count ≤ machine.stack ∧ address = machine.heap ∧
        grown = { machine with heap := machine.heap + count } := by
  unfold allocate nextHeapAddress
  by_cases hroom : machine.heap + count ≤ machine.stack
  · simp only [hroom, ↓reduceIte, Except.map, Except.ok.injEq,
      Prod.mk.injEq, true_and]
    constructor
    · intro h
      exact ⟨h.right.symm, h.left.symm⟩
    · intro h
      exact ⟨h.right.symm, h.left.symm⟩
  · simp [hroom, Except.map]

theorem allocate_eq_error_iff {machine : Machine} {count : Nat}
    {cause : MachineError} :
    machine.allocate count = .error cause <->
      machine.stack < machine.heap + count ∧
        cause = .heapExhausted count machine.heap machine.stack := by
  unfold allocate nextHeapAddress
  by_cases hroom : machine.heap + count ≤ machine.stack
  · simp [hroom, Nat.not_lt.mpr hroom, Except.map]
  · simp [hroom, Nat.not_le.mp hroom, Except.map, eq_comm]

theorem map_snd_allocate (machine : Machine) (count : Nat) :
    (machine.allocate count).map Prod.snd = machine.nextHeapAddress count := by
  unfold allocate
  cases machine.nextHeapAddress count <;> rfl

def checkedAdd (a b : UInt64) : Option UInt64 :=
  if a + b < a then none else some (a + b)

theorem checkedAdd_eq_some_iff {a b sum : UInt64} :
    checkedAdd a b = some sum <-> a.toNat + b.toNat = sum.toNat := by
  have ha := a.toNat_lt
  have hb := b.toNat_lt
  have hsum := sum.toNat_lt
  unfold checkedAdd
  split
  · rename_i hwraps
    rw [UInt64.lt_iff_toNat_lt, UInt64.toNat_add] at hwraps
    simp only [reduceCtorEq, false_iff]
    omega
  · rename_i hkeeps
    rw [UInt64.lt_iff_toNat_lt, UInt64.toNat_add] at hkeeps
    rw [Option.some.injEq, ← UInt64.toNat_inj, UInt64.toNat_add]
    omega

/-- In a machine of 64-bit words the heap grows by checked additions. -/
theorem nextHeapAddress_eq_checkedAdd {machine : Machine} {heap stack : UInt64}
    (hheap : machine.heap = heap.toNat) (hstack : machine.stack = stack.toNat)
    (count : UInt64) :
    machine.nextHeapAddress count.toNat =
      if (checkedAdd heap count).any (· ≤ stack) then
        .ok heap.toNat
      else
        .error (.heapExhausted count.toNat heap.toNat stack.toNat) := by
  have hroom : machine.heap + count.toNat ≤ machine.stack <->
      (checkedAdd heap count).any (· ≤ stack) = true := by
    rw [hheap, hstack, Option.any_eq_true]
    simp only [checkedAdd_eq_some_iff, decide_eq_true_eq,
      UInt64.le_iff_toNat_le]
    constructor
    · intro hle
      have hfits := Nat.lt_of_le_of_lt hle stack.toNat_lt
      refine ⟨UInt64.ofNat (heap.toNat + count.toNat), ?_, ?_⟩
      · rw [UInt64.toNat_ofNat_of_lt' hfits]
      · rw [UInt64.toNat_ofNat_of_lt' hfits]
        exact hle
    · rintro ⟨stop, hstop, hle⟩
      rw [hstop]
      exact hle
  unfold nextHeapAddress
  simp only [hroom]
  rw [hheap, hstack]

theorem loaded_eq (machine : Machine) (code : List Instruction) :
    machine.loaded code =
      { machine with
        memory := (machine.loaded code).memory
        codeLength := code.length } := by
  have hplace :=
    congrArg (fun placed : Machine => { placed with codeLength := code.length })
      (machine.place_eq 0 code)
  exact hplace

/-!
## What a history keeps
-/

/-- The machine runs a program: it is in the first cells, unless an execution
has stored numbers there. -/
structure Runs (machine : Machine) (program : List Instruction) : Prop where
  length : machine.codeLength = program.length
  cells : forall i instruction, program[i]? = some instruction ->
    machine.word? i = some (.code instruction) ∨
      exists value, machine.word? i = some (.data value)

theorem runs_loaded (machine : Machine) (code : List Instruction) :
    (machine.loaded code).Runs code := by
  constructor
  · rfl
  · intro i instruction hi
    have hcell := machine.holdsCode_loaded code i instruction hi
    rw [Nat.zero_add] at hcell
    exact Or.inl hcell

theorem Runs.execute {machine : Machine} {program : List Instruction}
    (h : machine.Runs program) : machine.execute.1.Runs program := by
  constructor
  · have hlength := congrArg Machine.codeLength machine.execute_eq
    exact hlength.trans h.length
  · intro i instruction hi
    rcases machine.word?_execute_or i with hsame | hdata
    · rw [hsame]
      exact h.cells i instruction hi
    · exact Or.inr hdata

/-- The numbers that stand in place of instructions of a program. -/
def erased (machine : Machine) (program : List Instruction) :
    List (Nat × Binary64) :=
  (List.range program.length).filterMap fun address =>
    (machine.read? address).map fun value => (address, value)

theorem lookup_filterMap_range (read? : Nat -> Option Binary64)
    (count address : Nat) :
    ((List.range count).filterMap fun i =>
      (read? i).map fun value => (i, value)).lookup address =
      if address < count then read? address else none := by
  induction count with
  | zero => rfl
  | succ count ih =>
      rw [List.range_succ, List.filterMap_append, List.lookup_append, ih]
      by_cases hlast : address = count
      · subst hlast
        cases hread : read? address <;> simp [hread]
      · have hlater : (address == count) = false :=
          beq_eq_false_iff_ne.mpr hlast
        have hlt : address < count + 1 <-> address < count := by omega
        cases hread : read? count <;>
          simp [hread, hlater, hlt, List.lookup_cons]

/-- Executing a machine comes to what its program read straight through comes
to, where the instructions that have been erased before are passed over. -/
theorem Runs.execute_eq {machine : Machine} {program : List Instruction}
    (h : machine.Runs program) :
    let final := Interpretation.run (machine.given program) program
      ⟨machine.register, machine.erased program, 0⟩
    machine.execute.2 = final.registers 0 ∧
      final.Describes (machine.loaded program) machine.execute.1 := by
  have hstart : Interpretation.Describes ⟨machine.register,
      machine.erased program, 0⟩
      (machine.loaded program) machine := by
    constructor
    · exact fun _ => rfl
    · intro address
      simp only [erased, lookup_filterMap_range]
      by_cases hinside : address < program.length
      · have hcode := machine.holdsCode_loaded program address program[address]
          (List.getElem?_eq_getElem hinside)
        rw [Nat.zero_add] at hcode
        rw [if_pos hinside, hcode]
        rcases h.cells address program[address]
          (List.getElem?_eq_getElem hinside) with
          hcell | ⟨value, hcell⟩
        · simp [read?, hcell]
        · simp [read?, hcell]
      · rw [if_neg hinside, word?_loaded (Nat.not_lt.mp hinside)]
    · rw [machine.loaded_eq program, ← h.length]
  rcases Interpretation.describes_run (machine.read?_loaded program) hstart
      (machine.holdsCode_loaded program) (Nat.zero_add program.length).symm with
    ⟨after, hrun, hafter⟩
  have hexecute : machine.execute = (after, after.register 0) := by
    rw [Machine.execute, hrun]
  rw [hexecute]
  exact ⟨hafter.registers 0, hafter⟩

/-- What a machine has in common with its configuration, the reservations that
have been made and the program that was loaded last. -/
structure Maps (machine : Machine) (config : Config)
    (reserved : List Reservation) (program : List Instruction) : Prop where
  heapBase : machine.heapBase = config.heapBase
  stack : machine.stack = config.stackTop
  heap : machine.heap = config.heapBase + Reservation.total reserved
  consecutive : Reservation.Consecutive config.heapBase reserved
  below : forall reservation, reservation ∈ reserved ->
    reservation.address + reservation.count ≤ config.stackTop
  runs : machine.Runs program

namespace Maps

variable {machine : Machine} {config : Config} {reserved : List Reservation}
  {program : List Instruction}

theorem new (config : Config) : (Machine.new config).Maps config [] [] where
  heapBase := rfl
  stack := rfl
  heap := rfl
  consecutive := Reservation.consecutive_nil config.heapBase
  below := by simp
  runs := ⟨rfl, by simp⟩

theorem load (h : machine.Maps config reserved program)
    (code : List Instruction) :
    (machine.call (.load code)).Maps config reserved
      (machine.programAfter program (.load code)) := by
  cases hload : machine.load code with
  | error cause =>
      simp only [Machine.call, programAfter, hload]
      exact h
  | ok loaded =>
      simp only [Machine.call, programAfter, hload]
      rw [load_eq_ok hload]
      exact
        { heapBase := (heapBase_loaded machine code).trans h.heapBase
          stack := (stack_loaded machine code).trans h.stack
          heap := (heap_loaded machine code).trans h.heap
          consecutive := h.consecutive
          below := h.below
          runs := machine.runs_loaded code }

theorem allocate (h : machine.Maps config reserved program) (count : Nat) :
    (machine.call (.allocate count)).Maps config
      (reserved ++ machine.reserved (.allocate count)) program := by
  cases hallocate : machine.allocate count with
  | error cause =>
      simp only [Machine.call, Machine.reserved, hallocate, List.append_nil]
      exact h
  | ok result =>
      rcases result with ⟨grown, address⟩
      simp only [Machine.call, Machine.reserved, hallocate]
      rcases allocate_eq_ok_iff.mp hallocate with ⟨hroom, rfl, rfl⟩
      constructor
      · exact h.heapBase
      · exact h.stack
      · simp only [Reservation.total_append, Reservation.total,
          Nat.add_zero, h.heap, Nat.add_assoc]
      · exact h.consecutive.concat h.heap
      · intro reservation hreservation
        rcases List.mem_append.mp hreservation with hearlier | hlast
        · exact h.below reservation hearlier
        · rw [List.mem_singleton.mp hlast, ← h.stack]
          exact hroom
      · exact ⟨h.runs.length, h.runs.cells⟩

theorem execute (h : machine.Maps config reserved program) :
    machine.execute.1.Maps config reserved program where
  heapBase := (congrArg Machine.heapBase machine.execute_eq).trans h.heapBase
  stack := (congrArg Machine.stack machine.execute_eq).trans h.stack
  heap := (congrArg Machine.heap machine.execute_eq).trans h.heap
  consecutive := h.consecutive
  below := h.below
  runs := h.runs.execute

theorem call (h : machine.Maps config reserved program) (call : MachineCall) :
    (machine.call call).Maps config (reserved ++ machine.reserved call)
      (machine.programAfter program call) := by
  cases call with
  | allocate count => exact h.allocate count
  | load code =>
      simp only [Machine.reserved, List.append_nil]
      exact h.load code
  | execute =>
      simp only [Machine.reserved, List.append_nil]
      exact h.execute
  | _ =>
      simp only [Machine.reserved, List.append_nil]
      exact ⟨h.heapBase, h.stack, h.heap, h.consecutive, h.below,
        h.runs.length, h.runs.cells⟩

theorem after (h : machine.Maps config reserved program)
    (calls : List MachineCall) :
    (machine.after calls).Maps config (reserved ++ machine.reservations calls)
      (machine.lastLoaded program calls) := by
  induction calls generalizing machine reserved program with
  | nil =>
      rw [reservations, List.append_nil]
      exact h
  | cons first rest ih =>
      rw [reservations, ← List.append_assoc]
      exact ih (h.call first)

theorem heap_le (h : machine.Maps config reserved program) :
    machine.heap ≤ max config.heapBase config.stackTop := by
  rw [h.heap]
  rcases List.eq_nil_or_concat reserved with rfl | ⟨earlier, last, rfl⟩
  · exact Nat.le_max_left _ _
  · rw [List.concat_eq_append] at h ⊢
    have hlast := h.consecutive earlier last [] rfl
    have hbelow := h.below last (by simp)
    rw [Reservation.total_append]
    simp only [Reservation.total]
    omega

theorem heapBase_le (h : machine.Maps config reserved program)
    {reservation : Reservation} (hmem : reservation ∈ reserved) :
    config.heapBase ≤ reservation.address := by
  rcases List.append_of_mem hmem with ⟨earlier, later, heq⟩
  rw [h.consecutive earlier reservation later heq]
  exact Nat.le_add_right _ _

end Maps

/-!
## The map
-/

/-- What a history says about the memory of its machine: where the reservations
lie, what a reservation or a program to come will change, and which program an
execution to come will run. -/
structure KeepsMap (machine : Machine) (config : Config)
    (reserved : List Reservation) (program : List Instruction) : Prop where
  placed : forall earlier reservation later,
    reserved = earlier ++ reservation :: later ->
    reservation.address = config.heapBase + Reservation.total earlier
  inside : forall reservation, reservation ∈ reserved ->
    config.heapBase ≤ reservation.address ∧
      reservation.address + reservation.count ≤ config.stackTop
  disjoint : reserved.Pairwise fun first second =>
    forall cell, ¬ (first.Covers cell ∧ second.Covers cell)
  heap : machine.heap = config.heapBase + Reservation.total reserved
  /-- Sums of addresses and counts that succeed stay within the bounds of the
  configuration. -/
  bounded : machine.heap ≤ max config.heapBase config.stackTop
  foretold : forall count,
    (machine.allocate count).map Prod.snd = machine.nextHeapAddress count
  reserves : forall count,
    if machine.heap + count ≤ config.stackTop then
      machine.allocate count =
        .ok ({ machine with heap := machine.heap + count }, machine.heap)
    else
      machine.allocate count =
        .error (.heapExhausted count machine.heap config.stackTop)
  loads : forall code loaded, machine.load code = .ok loaded ->
    code.length ≤ config.heapBase ∧
      loaded = { machine with
        memory := loaded.memory, codeLength := code.length } ∧
      loaded.HoldsCode 0 code ∧
      (forall cell, code.length ≤ cell ->
        loaded.word? cell = machine.word? cell) ∧
      forall reservation, reservation ∈ reserved ->
        forall cell, reservation.Covers cell ->
        loaded.word? cell = machine.word? cell
  refuses : forall code cause, machine.load code = .error cause <->
    config.heapBase < code.length ∧
        cause = .programTooLarge code.length config.heapBase ∨
      code.length ≤ config.heapBase ∧ code.getLast? ≠ some .halt ∧
      cause = .missingHalt
  runs : machine.Runs program
  executes :
    let final := Interpretation.run (machine.given program) program
      ⟨machine.register, machine.erased program, 0⟩
    machine.execute.2 = final.registers 0 ∧
      final.Describes (machine.loaded program) machine.execute.1
  /-- What is refused leaves the machine and the program that it runs. -/
  unchanged : forall call cause,
    (exists code, call = .load code ∧ machine.load code = .error cause) ∨
      (exists count, call = .allocate count ∧
        machine.allocate count = .error cause) ->
    machine.call call = machine ∧
    (machine.call call).execute = machine.execute ∧
      machine.programAfter program call = program

theorem Maps.keepsMap {machine : Machine} {config : Config}
    {reserved : List Reservation} {program : List Instruction}
    (h : machine.Maps config reserved program) :
    machine.KeepsMap config reserved program where
  placed := h.consecutive
  inside := fun reservation hmem =>
    ⟨h.heapBase_le hmem, h.below reservation hmem⟩
  disjoint := by
    apply h.consecutive.pairwise.imp
    intro first second hapart cell hcell
    rcases hcell with ⟨⟨_, hfirst⟩, hsecond, _⟩
    omega
  heap := h.heap
  bounded := h.heap_le
  foretold := machine.map_snd_allocate
  reserves := by
    intro count
    rw [← h.stack]
    split
    · rename_i hroom
      exact allocate_eq_ok_iff.mpr ⟨hroom, rfl, rfl⟩
    · rename_i hroom
      exact allocate_eq_error_iff.mpr ⟨Nat.not_le.mp hroom, rfl⟩
  loads := by
    intro code loaded hload
    rcases load_eq_ok_iff.mp hload with ⟨hfits, _, rfl⟩
    rw [h.heapBase] at hfits
    refine ⟨hfits, machine.loaded_eq code, machine.holdsCode_loaded code,
      fun cell hcell => word?_loaded hcell, ?_⟩
    intro reservation hmem cell hcovers
    exact word?_loaded
      (Nat.le_trans hfits (Nat.le_trans (h.heapBase_le hmem) hcovers.left))
  refuses := by
    intro code cause
    rw [← h.heapBase]
    exact load_eq_error_iff
  runs := h.runs
  executes := h.runs.execute_eq
  unchanged := by
    intro call cause hrefused
    rcases hrefused with ⟨code, rfl, hload⟩ | ⟨count, rfl, hallocate⟩
    · simp [Machine.call, programAfter, hload]
    · simp [Machine.call, programAfter, hallocate]

/-- Every history on a new machine keeps to the map of its configuration. -/
theorem keepsMap_after (config : Config) (calls : List MachineCall) :
    ((Machine.new config).after calls).KeepsMap config
      ((Machine.new config).reservations calls)
        ((Machine.new config).lastLoaded [] calls) := by
  have h := (Maps.new config).after calls
  rw [List.nil_append] at h
  exact h.keepsMap

end Machine

end LineCalc
