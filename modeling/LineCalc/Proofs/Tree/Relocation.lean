import LineCalc.Tree.Relocation
import LineCalc.Tree.Tokens

/-!
# Code in another memory layout

If all names of a tree are stored at the same distance from where they were, the
code of the tree is the old one relocated by that distance.  The registers that
it works in do not depend on addresses at all.
-/

namespace LineCalc

section

variable {address other : String -> Nat} {distance : Nat}

def Moved (address other : String -> Nat) (distance : Nat)
    (tokens : List Token) : Prop :=
  forall name, .name name ∈ tokens -> other name = address name + distance

theorem Moved.left {left right : List Token}
    (h : Moved address other distance (left ++ right)) :
    Moved address other distance left :=
  fun name hname => h name (List.mem_append_left _ hname)

theorem Moved.right {left right : List Token} {token : Token}
    (h : Moved address other distance (left ++ token :: right)) :
    Moved address other distance right :=
  fun name hname =>
    h name (List.mem_append_right _ (List.mem_cons_of_mem _ hname))

mutual

theorem Expression.accumulate_of_moved :
    forall (e : Expression) (free : Nat),
      Moved address other distance e.tokens ->
      e.accumulate other free =
        (e.accumulate address free).map (.relocate distance)
  | .term t, free, h => by
      have hterm := Term.accumulate_of_moved t (free + 1) h
      simp [Expression.accumulate, hterm, Instruction.relocate]
  | .chain left op right, free, h => by
      rw [Expression.tokens] at h
      have hleft := Expression.accumulate_of_moved left free h.left
      have hright :=
        Term.accumulate_of_moved right (free + left.registers + 1) h.right
      simp [Expression.accumulate, hleft, hright, Instruction.relocate]

theorem Term.accumulate_of_moved :
    forall (t : Term) (free : Nat), Moved address other distance t.tokens ->
      t.accumulate other free =
        (t.accumulate address free).map (.relocate distance)
  | .factor f, free, h => Factor.code_of_moved f free (free + 1) h
  | .chain left op right, free, h => by
      rw [Term.tokens] at h
      have hleft := Term.accumulate_of_moved left free h.left
      have hright := Factor.code_of_moved right (free + left.registers)
        (free + left.registers + 1) h.right
      simp [Term.accumulate, hleft, hright, Instruction.relocate]

theorem Factor.code_of_moved :
    forall (f : Factor) (target free : Nat),
      Moved address other distance f.tokens ->
      f.code other target free =
        (f.code address target free).map (.relocate distance)
  | .number value, target, free, _ => rfl
  | .name name, target, free, h => by
      have hname := h name (by simp [Factor.tokens])
      simp [Factor.code, hname, Instruction.relocate]
  | .group inner, target, free, h => by
      have hinner := Expression.accumulate_of_moved inner free
        (fun name hname => h name (by simp [Factor.tokens, hname]))
      simp [Factor.code, hinner, Instruction.relocate]

end

theorem Expression.code_of_moved (e : Expression) (target free : Nat)
    (h : Moved address other distance e.tokens) :
    e.code other target free =
      (e.code address target free).map (.relocate distance) := by
  simp [Expression.code, e.accumulate_of_moved free h, Instruction.relocate]

theorem Statement.program_of_moved (statement : Statement) (first : Nat)
    (h : Moved address other distance statement.body.tokens) :
    (statement.relocate distance).program other first =
      (statement.program address first).map (.relocate distance) := by
  have hbody := statement.body.code_of_moved first (first + 1) h
  rcases statement with ⟨binding, body⟩
  cases binding with
  | none =>
      simp [Statement.program, Statement.relocate, hbody, Instruction.relocate]
  | some binding =>
      simp [Statement.program, Statement.relocate, hbody, Instruction.relocate]

end

end LineCalc
