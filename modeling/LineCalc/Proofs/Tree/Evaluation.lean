import LineCalc.Proofs.Machine.Block
import LineCalc.Tree.Code
import LineCalc.Tree.Tokens
import LineCalc.Tree.Value

/-!
# Values of compiled trees

The code of a tree leaves the tree's value in its target register.  It works in
the registers from the free one on and stores nothing, so the operands that were
computed before it survive: that is what carries the induction over the tree.
-/

namespace LineCalc

/-- A machine has a value in a register, and below the free registers no other
one has changed. -/
structure Machine.Computes (free target : Nat) (value : Binary64)
    (before after : Machine) : Prop where
  result : after.register target = value
  kept : forall index, index < free -> index ≠ target ->
    after.register index = before.register index

/-!
## Steps of the code
-/

theorem Expression.le_accumulator (free : Nat) (e : Expression) :
    free ≤ e.accumulator free := by
  cases e with
  | term t => exact Nat.le_refl free
  | chain left op right =>
      rw [Expression.accumulator]
      omega

theorem Term.le_accumulator (free : Nat) (t : Term) :
    free ≤ t.accumulator free := by
  cases t with
  | factor f => exact Nat.le_refl free
  | chain left op right =>
      rw [Term.accumulator]
      omega

theorem Expression.accumulator_lt (free : Nat) (e : Expression) :
    e.accumulator free < free + e.registers := by
  cases e with
  | term t =>
      rw [Expression.accumulator, Expression.registers]
      omega
  | chain left op right =>
      rw [Expression.accumulator, Expression.registers]
      omega

theorem Term.accumulator_lt (free : Nat) (t : Term) :
    t.accumulator free < free + t.registers := by
  cases t with
  | factor f =>
      rw [Term.accumulator, Term.registers]
      omega
  | chain left op right =>
      rw [Term.accumulator, Term.registers]
      omega

namespace Machine

theorem Computes.weaken {free lower target : Nat} {value : Binary64}
    {before after : Machine} (h : Computes free target value before after)
    (hlower : lower ≤ free) :
    Computes lower target value before after :=
  ⟨h.result, fun index hindex hne => h.kept index (by omega) hne⟩

theorem Computes.move {free source target : Nat} {value : Binary64}
    {before after : Machine} (h : Computes free source value before after)
    (hsource : free ≤ source) :
    Computes free target value before
      (after.perform (.move source target)) := by
  constructor
  · simp [perform, h.result]
  · intro index hindex hne
    rw [perform, register_setRegister, if_neg (Ne.symm hne)]
    exact h.kept index hindex (by omega)

theorem Computes.binary {free left operand target : Nat} {op : Operator}
    {leftValue rightValue : Binary64} {before middle after : Machine}
    (hleft : Computes free left leftValue before middle)
    (hright : Computes (operand + 1) operand rightValue middle after)
    (hbelow : left < operand) (hfree : free ≤ left) :
    Computes free target (op.apply leftValue rightValue) before
      (after.perform (.binary op left operand target)) := by
  constructor
  · have hsurvives : after.register left = leftValue := by
      rw [hright.kept left (by omega) (by omega), hleft.result]
    simp [perform, hsurvives, hright.result]
  · intro index hindex hne
    rw [perform, register_setRegister, if_neg (Ne.symm hne),
      hright.kept index (by omega) (by omega)]
    exact hleft.kept index hindex (by omega)

end Machine

/-!
## The code of trees
-/

def Instruction.Calculates (instruction : Instruction) : Prop :=
  instruction ≠ .halt ∧ instruction.storeTarget? = none

section

variable (address : String -> Nat)

mutual

theorem Expression.calculates_accumulate :
    forall (e : Expression) (free : Nat) (instruction : Instruction),
      instruction ∈ e.accumulate address free -> instruction.Calculates
  | .term t, free, instruction, h => by
      rw [Expression.accumulate] at h
      rcases List.mem_append.mp h with hterm | hmove
      · exact Term.calculates_accumulate t (free + 1) instruction hterm
      · rw [List.mem_singleton.mp hmove]
        exact ⟨by simp, rfl⟩
  | .chain left op right, free, instruction, h => by
      simp only [Expression.accumulate, List.mem_append,
        List.mem_singleton] at h
      rcases h with ((hleft | hright) | hmove) | hbinary
      · exact Expression.calculates_accumulate left free instruction hleft
      · exact Term.calculates_accumulate right _ instruction hright
      · rw [hmove]
        exact ⟨by simp, rfl⟩
      · rw [hbinary]
        exact ⟨by simp, rfl⟩

theorem Term.calculates_accumulate :
    forall (t : Term) (free : Nat) (instruction : Instruction),
      instruction ∈ t.accumulate address free -> instruction.Calculates
  | .factor f, free, instruction, h => by
      rw [Term.accumulate] at h
      exact Factor.calculates_code f free (free + 1) instruction h
  | .chain left op right, free, instruction, h => by
      simp only [Term.accumulate, List.mem_append, List.mem_singleton] at h
      rcases h with (hleft | hright) | hbinary
      · exact Term.calculates_accumulate left free instruction hleft
      · exact Factor.calculates_code right _ _ instruction hright
      · rw [hbinary]
        exact ⟨by simp, rfl⟩

theorem Factor.calculates_code :
    forall (f : Factor) (target free : Nat) (instruction : Instruction),
      instruction ∈ f.code address target free -> instruction.Calculates
  | .number value, target, free, instruction, h => by
      rw [Factor.code, List.mem_singleton] at h
      rw [h]
      exact ⟨by simp, rfl⟩
  | .name name, target, free, instruction, h => by
      rw [Factor.code, List.mem_singleton] at h
      rw [h]
      exact ⟨by simp, rfl⟩
  | .group inner, target, free, instruction, h => by
      rw [Factor.code] at h
      rcases List.mem_append.mp h with hinner | hmove
      · exact Expression.calculates_accumulate inner free instruction hinner
      · rw [List.mem_singleton.mp hmove]
        exact ⟨by simp, rfl⟩

end

/-- The machine's cells hold the values of the names among the tokens. -/
def Machine.Supplies (machine : Machine) (valueOf : String -> Binary64)
    (tokens : List Token) : Prop :=
  forall name, .name name ∈ tokens ->
    (machine.read? (address name)).getD .nan = valueOf name

variable {address} {valueOf : String -> Binary64}

theorem Machine.Supplies.left {machine : Machine} {left right : List Token}
    (h : machine.Supplies address valueOf (left ++ right)) :
    machine.Supplies address valueOf left :=
  fun name hname => h name (List.mem_append_left _ hname)

theorem Machine.Supplies.right {machine : Machine} {left right : List Token}
    {code : List Instruction}
    (h : machine.Supplies address valueOf (left ++ right))
    (hcode : forall instruction, instruction ∈ code -> instruction.Calculates) :
    (machine.performAll code).Supplies address valueOf right := by
  intro name hname
  have hmemory : (machine.performAll code).memory = machine.memory :=
    memory_performAll (fun instruction hmem => (hcode instruction hmem).right)
  rw [← h name (List.mem_append_right _ hname)]
  simp only [read?, word?, hmemory]

mutual

theorem Expression.computes_accumulate :
    forall (e : Expression) (free : Nat) (machine : Machine),
      machine.Supplies address valueOf e.tokens ->
        Machine.Computes free (e.accumulator free) (e.value valueOf) machine
          (machine.performAll (e.accumulate address free))
  | .term t, free, machine, h => by
      have hterm := Term.computes_accumulate t (free + 1) machine h
      rw [Expression.accumulate, Machine.performAll_append]
      exact (hterm.move (t.le_accumulator (free + 1))).weaken (by omega)
  | .chain left op right, free, machine, h => by
      rw [Expression.tokens] at h
      have hleft := Expression.computes_accumulate left free machine h.left
      have hsupplies :=
        h.right (Expression.calculates_accumulate address left free)
      have hright :=
        Term.computes_accumulate right (free + left.registers + 1) _
          (fun name hname => hsupplies name (List.mem_cons_of_mem _ hname))
      -- The accumulator of the left operand lies below the register of the
      -- right one, so the code of the right operand keeps it.
      rw [Expression.accumulator_chain, Expression.value]
      simp only [Expression.accumulate, Machine.performAll_append,
        Machine.performAll_cons, Machine.performAll_nil]
      exact hleft.binary (hright.move (right.le_accumulator _))
        (left.accumulator_lt free)
        (left.le_accumulator free)

theorem Term.computes_accumulate :
    forall (t : Term) (free : Nat) (machine : Machine),
      machine.Supplies address valueOf t.tokens ->
        Machine.Computes free (t.accumulator free) (t.value valueOf) machine
          (machine.performAll (t.accumulate address free))
  | .factor f, free, machine, h => by
      have hfactor := Factor.computes_code f free (free + 1) machine h
      rw [Term.accumulate]
      exact hfactor.weaken (by omega)
  | .chain left op right, free, machine, h => by
      rw [Term.tokens] at h
      have hleft := Term.computes_accumulate left free machine h.left
      have hsupplies := h.right (Term.calculates_accumulate address left free)
      have hright := Factor.computes_code right (free + left.registers)
        (free + left.registers + 1) _
        (fun name hname => hsupplies name (List.mem_cons_of_mem _ hname))
      rw [Term.accumulator_chain, Term.value]
      simp only [Term.accumulate, Machine.performAll_append,
        Machine.performAll_cons, Machine.performAll_nil]
      exact hleft.binary hright (left.accumulator_lt free)
        (left.le_accumulator free)

theorem Factor.computes_code :
    forall (f : Factor) (target free : Nat) (machine : Machine),
      machine.Supplies address valueOf f.tokens ->
        Machine.Computes free target (f.value valueOf) machine
          (machine.performAll (f.code address target free))
  | .number value, target, free, machine, _ => by
      constructor
      · simp [Factor.code, Machine.perform, Factor.value]
      · intro index _ hne
        simp [Factor.code, Machine.perform, Ne.symm hne]
  | .name name, target, free, machine, h => by
      have hname := h name (by simp [Factor.tokens])
      constructor
      · simp [Factor.code, Machine.perform, Factor.value, hname]
      · intro index _ hne
        simp [Factor.code, Machine.perform, Ne.symm hne]
  | .group inner, target, free, machine, h => by
      have hinner := Expression.computes_accumulate inner free machine
        (fun name hname => h name (by simp [Factor.tokens, hname]))
      rw [Factor.code, Machine.performAll_append]
      exact hinner.move (inner.le_accumulator free)

end

theorem Expression.calculates_code (e : Expression) (target free : Nat)
    {instruction : Instruction} (h : instruction ∈ e.code address target free) :
    instruction.Calculates := by
  rw [Expression.code] at h
  rcases List.mem_append.mp h with haccumulate | hmove
  · exact e.calculates_accumulate address free instruction haccumulate
  · rw [List.mem_singleton.mp hmove]
    exact ⟨by simp, rfl⟩

/-- The code of an expression leaves its value in the target. -/
theorem Expression.register_performAll_code {machine : Machine} (e : Expression)
    (target free : Nat) (h : machine.Supplies address valueOf e.tokens) :
    (machine.performAll (e.code address target free)).register target =
      e.value valueOf := by
  have haccumulate := e.computes_accumulate free machine h
  rw [Expression.code, Machine.performAll_append]
  exact (haccumulate.move (e.le_accumulator free)).result

end

end LineCalc
