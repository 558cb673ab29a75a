import LineCalc.Instruction.Registers
import LineCalc.Tree.Code
import Mathlib.Data.List.Basic

/-!
# Registers of compiled trees

The code of a tree that works in the registers from a free one on writes each of
the registers that it claims, and its target, exactly once.  It reads each of
them exactly once as well, up to the accumulator of an expression or a term,
which is left to be moved to where the value is wanted, and nothing before it
has been written.
-/

namespace LineCalc

open Instruction

/-!
## Chains

The operands of a chain work in consecutive ranges of registers, with the
register of the right operand between them and the register of the result behind
them.
-/

theorem range'_chain (free left right : Nat) :
    List.range' free (left + right + 2) =
      List.range' free left ++
        (free + left) :: List.range' (free + left + 1) right ++
          [free + left + 1 + right] := by
  have hsplit : left + right + 2 = left + (right + 1 + 1) := by omega
  rw [hsplit, ← List.range'_append_1, List.range'_succ, List.range'_1_concat]
  simp

theorem perm_written_chain {free left right : Nat} {before inside : List Nat}
    (hleft : before.Perm (List.range' free left))
    (hright : inside.Perm ((free + left) :: List.range' (free + left + 1) right)) :
    (before ++ inside ++ [free + left + 1 + right]).Perm
      (List.range' free (left + right + 2)) := by
  rw [range'_chain]
  exact (hleft.append hright).append_right _

/-- The left operand leaves its accumulator unread; the operation reads it
together with the register of the right operand, and leaves its result
unread. -/
theorem perm_read_chain {free left right accumulator : Nat}
    {before inside : List Nat}
    (hleft : (accumulator :: before).Perm (List.range' free left))
    (hright : inside.Perm (List.range' (free + left + 1) right)) :
    ((free + left + 1 + right) :: (before ++ inside ++
      [accumulator, free + left])).Perm
      (List.range' free (left + right + 2)) := by
  rw [range'_chain, List.perm_iff_count]
  intro register
  have hbefore := hleft.count_eq register
  have hinside := hright.count_eq register
  simp only [List.count_cons, List.count_append, List.count_nil] at hbefore ⊢
  omega

section

variable (address : String -> Nat)

/-!
## Registers that are written
-/

mutual

theorem Expression.perm_written_accumulate :
    forall (e : Expression) (free : Nat),
      (written (e.accumulate address free)).Perm (List.range' free e.registers)
  | .term t, free => by
      have hterm := Term.perm_written_accumulate t (free + 1)
      rw [Expression.accumulate, Expression.registers, written_append,
        Nat.add_comm 1, List.range'_succ]
      exact (hterm.append_right _).trans (List.perm_append_singleton free _)
  | .chain left op right, free => by
      have hleft := Expression.perm_written_accumulate left free
      have hright :=
        Term.perm_written_accumulate right (free + left.registers + 1)
      have hoperand := (hright.append_right [free + left.registers]).trans
        (List.perm_append_singleton _ _)
      have hchain := perm_written_chain hleft hoperand
      rw [Expression.registers, Expression.accumulate]
      simpa only [written_append, written_singleton, target?,
        Option.toList_some, List.append_assoc] using hchain

theorem Term.perm_written_accumulate :
    forall (t : Term) (free : Nat),
      (written (t.accumulate address free)).Perm (List.range' free t.registers)
  | .factor f, free => by
      have hfactor := Factor.perm_written_code f free (free + 1)
      rwa [Term.accumulate, Term.registers, Nat.add_comm 1, List.range'_succ]
  | .chain left op right, free => by
      have hleft := Term.perm_written_accumulate left free
      have hright := Factor.perm_written_code right (free + left.registers)
        (free + left.registers + 1)
      have hchain := perm_written_chain hleft hright
      rw [Term.registers, Term.accumulate]
      simpa only [written_append, written_singleton, target?,
        Option.toList_some] using hchain

theorem Factor.perm_written_code :
    forall (f : Factor) (target free : Nat),
      (written (f.code address target free)).Perm
        (target :: List.range' free f.registers)
  | .number value, target, free => List.Perm.refl _
  | .name name, target, free => List.Perm.refl _
  | .group inner, target, free => by
      have hinner := Expression.perm_written_accumulate inner free
      rw [Factor.code, Factor.registers, written_append]
      exact (hinner.append_right _).trans (List.perm_append_singleton target _)

end

/-!
## Registers that are read
-/

mutual

theorem Expression.perm_read_accumulate :
    forall (e : Expression) (free : Nat),
      (e.accumulator free :: read (e.accumulate address free)).Perm
        (List.range' free e.registers)
  | .term t, free => by
      have hterm := Term.perm_read_accumulate t (free + 1)
      rw [Expression.accumulate, Expression.registers, read_append,
        Nat.add_comm 1, List.range'_succ]
      exact ((List.perm_append_singleton _ _).trans hterm).cons free
  | .chain left op right, free => by
      have hleft := Expression.perm_read_accumulate left free
      have hright := Term.perm_read_accumulate right (free + left.registers + 1)
      have hoperand := (List.perm_append_singleton _ _).trans hright
      have hchain := perm_read_chain hleft hoperand
      rw [Expression.registers, Expression.accumulate,
        Expression.accumulator_chain]
      simpa only [read_append, read_singleton, sources,
        List.append_assoc] using hchain

theorem Term.perm_read_accumulate :
    forall (t : Term) (free : Nat),
      (t.accumulator free :: read (t.accumulate address free)).Perm
        (List.range' free t.registers)
  | .factor f, free => by
      have hfactor := Factor.perm_read_code f free (free + 1)
      rw [Term.accumulate, Term.registers, Nat.add_comm 1, List.range'_succ]
      exact hfactor.cons free
  | .chain left op right, free => by
      have hleft := Term.perm_read_accumulate left free
      have hright := Factor.perm_read_code right (free + left.registers)
        (free + left.registers + 1)
      have hchain := perm_read_chain hleft hright
      rw [Term.registers, Term.accumulate, Term.accumulator_chain]
      simpa only [read_append, read_singleton, sources] using hchain

theorem Factor.perm_read_code :
    forall (f : Factor) (target free : Nat),
      (read (f.code address target free)).Perm (List.range' free f.registers)
  | .number value, target, free => List.Perm.refl _
  | .name name, target, free => List.Perm.refl _
  | .group inner, target, free => by
      have hinner := Expression.perm_read_accumulate inner free
      rw [Factor.code, Factor.registers, read_append]
      exact (List.perm_append_singleton _ _).trans hinner

end

/-!
## Reading behind writing
-/

theorem Expression.accumulator_mem_written (e : Expression) (free : Nat) :
    e.accumulator free ∈ written (e.accumulate address free) := by
  have hrange :=
    (e.perm_read_accumulate address free).mem_iff.mp List.mem_cons_self
  exact (e.perm_written_accumulate address free).mem_iff.mpr hrange

theorem Term.accumulator_mem_written (t : Term) (free : Nat) :
    t.accumulator free ∈ written (t.accumulate address free) := by
  have hrange :=
    (t.perm_read_accumulate address free).mem_iff.mp List.mem_cons_self
  exact (t.perm_written_accumulate address free).mem_iff.mpr hrange

mutual

theorem Expression.readsWritten_accumulate :
    forall (e : Expression) (free : Nat),
      ReadsWritten (e.accumulate address free)
  | .term t, free => by
      have hterm := Term.readsWritten_accumulate t (free + 1)
      rw [Expression.accumulate]
      exact hterm.move (t.accumulator_mem_written address _) free
  | .chain left op right, free => by
      have hleft := Expression.readsWritten_accumulate left free
      have hright :=
        Term.readsWritten_accumulate right (free + left.registers + 1)
      have hoperand := hright.move (right.accumulator_mem_written address _)
        (free + left.registers)
      rw [Expression.accumulate,
        List.append_assoc (left.accumulate address free)]
      exact hleft.binary hoperand (left.accumulator_mem_written address free)
        (by simp [target?]) _ _

theorem Term.readsWritten_accumulate :
    forall (t : Term) (free : Nat), ReadsWritten (t.accumulate address free)
  | .factor f, free => by
      rw [Term.accumulate]
      exact Factor.readsWritten_code f free (free + 1)
  | .chain left op right, free => by
      have hleft := Term.readsWritten_accumulate left free
      have hright := Factor.readsWritten_code right (free + left.registers)
        (free + left.registers + 1)
      have hoperand := (right.perm_written_code address (free + left.registers)
        (free + left.registers + 1)).mem_iff.mpr List.mem_cons_self
      rw [Term.accumulate]
      exact hleft.binary hright
        (left.accumulator_mem_written address free) hoperand _ _

theorem Factor.readsWritten_code :
    forall (f : Factor) (target free : Nat),
      ReadsWritten (f.code address target free)
  | .number value, target, free => ReadsWritten.nil.concat (by simp [sources])
  | .name name, target, free => ReadsWritten.nil.concat (by simp [sources])
  | .group inner, target, free => by
      have hinner := Expression.readsWritten_accumulate inner free
      rw [Factor.code]
      exact hinner.move (inner.accumulator_mem_written address free) target

end

theorem Expression.readsWritten_code (e : Expression) (target free : Nat) :
    ReadsWritten (e.code address target free) :=
  (e.readsWritten_accumulate address free).move
    (e.accumulator_mem_written address free) target

theorem Expression.perm_written_code (e : Expression) (target free : Nat) :
    (written (e.code address target free)).Perm
      (target :: List.range' free e.registers) := by
  rw [Expression.code, written_append]
  exact ((e.perm_written_accumulate address free).append_right _).trans
    (List.perm_append_singleton target _)

theorem Expression.perm_read_code (e : Expression) (target free : Nat) :
    (read (e.code address target free)).Perm
      (List.range' free e.registers) := by
  rw [Expression.code, read_append]
  exact (List.perm_append_singleton _ _).trans
    (e.perm_read_accumulate address free)

end

end LineCalc
