import LineCalc.Tree.Code
import LineCalc.Tree.Grammar

/-!
# How long code is

Every register that the code of a tree claims is written by one instruction, so
the number of registers tells the number of instructions.  Both can be told from
the tokens of the tree, by counting operators and opening parentheses.
-/

namespace LineCalc

section

variable (address : String -> Nat)

mutual

theorem Expression.length_accumulate :
    forall (e : Expression) (free : Nat),
      (e.accumulate address free).length = e.registers
  | .term t, free => by
      rw [Expression.accumulate, List.length_append, Term.length_accumulate t,
        Expression.registers, List.length_singleton, Nat.add_comm]
  | .chain left op right, free => by
      simp only [Expression.accumulate, List.length_append,
        List.length_singleton, Expression.length_accumulate left,
        Term.length_accumulate right, Expression.registers, Nat.add_assoc]

theorem Term.length_accumulate :
    forall (t : Term) (free : Nat),
      (t.accumulate address free).length = t.registers
  | .factor f, free => by
      rw [Term.accumulate, Factor.length_code f, Term.registers, Nat.add_comm]
  | .chain left op right, free => by
      simp only [Term.accumulate, List.length_append, List.length_singleton,
        Term.length_accumulate left, Factor.length_code right, Term.registers,
        Nat.add_assoc]

theorem Factor.length_code :
    forall (f : Factor) (target free : Nat),
      (f.code address target free).length = f.registers + 1
  | .number value, target, free => rfl
  | .name name, target, free => rfl
  | .group inner, target, free => by
      rw [Factor.code, List.length_append, Expression.length_accumulate inner,
        Factor.registers, List.length_singleton]

end

/-- Besides the code of its expression, a program moves the value to the first
register, stores it if the line is a definition, and halts. -/
theorem Statement.length_program (statement : Statement) (first : Nat) :
    (statement.program address first).length =
      statement.body.registers + 2 + statement.binding.toList.length := by
  rcases statement with ⟨binding, body⟩
  have hbody := body.length_accumulate address (first + 1)
  cases binding <;> simp [Statement.program, Expression.code, hbody]

end

theorem Expression.two_le_registers (e : Expression) : 2 ≤ e.registers := by
  cases e with
  | chain left op right =>
      rw [Expression.registers]
      exact Nat.le_add_left 2 _
  | term t =>
      cases t with
      | factor f =>
          rw [Expression.registers, Term.registers, ← Nat.add_assoc]
          exact Nat.le_add_right 2 _
      | chain left op right =>
          rw [Expression.registers, Term.registers, ← Nat.add_assoc]
          exact Nat.le_add_left 2 _

/-!
## Counting tokens
-/

namespace Token

def isAdditive : Token -> Bool
  | operator (.additive _) => true
  | _ => false

def isMultiplicative : Token -> Bool
  | operator (.multiplicative _) => true
  | _ => false

/-- How many registers the operators and parentheses among tokens claim. -/
def demand (tokens : List Token) : Nat :=
  3 * tokens.countP isAdditive + 2 * tokens.countP isMultiplicative +
    2 * tokens.count .openParen

@[simp] theorem demand_append (left right : List Token) :
    demand (left ++ right) = demand left + demand right := by
  simp only [demand, List.countP_append, List.count_append]
  omega

theorem demand_cons (token : Token) (tokens : List Token) :
    demand (token :: tokens) = demand [token] + demand tokens := by
  rw [← demand_append, List.singleton_append]

end Token

mutual

theorem Expression.registers_eq_demand :
    forall e : Expression, e.registers = Token.demand e.tokens + 2
  | .term t => by
      rw [Expression.registers, Expression.tokens, Term.registers_eq_demand t,
        Nat.add_comm 1]
  | .chain left op right => by
      have hoperator : Token.demand [.operator (.additive op)] = 3 := rfl
      rw [Expression.registers, Expression.tokens, Token.demand_append,
        Token.demand_cons, hoperator, Expression.registers_eq_demand left,
        Term.registers_eq_demand right]
      omega

theorem Term.registers_eq_demand :
    forall t : Term, t.registers = Token.demand t.tokens + 1
  | .factor f => by
      rw [Term.registers, Term.tokens,
        Factor.registers_eq_demand f, Nat.add_comm]
  | .chain left op right => by
      have hoperator : Token.demand [.operator (.multiplicative op)] = 2 := rfl
      rw [Term.registers, Term.tokens, Token.demand_append,
        Token.demand_cons, hoperator, Term.registers_eq_demand left,
        Factor.registers_eq_demand right]
      omega

theorem Factor.registers_eq_demand :
    forall f : Factor, f.registers = Token.demand f.tokens
  | .number _ => rfl
  | .name _ => rfl
  | .group inner => by
      have hopen : Token.demand [.openParen] = 2 := rfl
      have hclose : Token.demand [.closeParen] = 0 := rfl
      rw [Factor.registers, Factor.tokens, Token.demand_append,
        Token.demand_cons, hopen, hclose, Expression.registers_eq_demand inner]
      omega

end

theorem Line.demand_tokens (line : Line) :
    Token.demand line.tokens = Token.demand line.body.tokens := by
  rcases line with ⟨_ | name, body⟩
  · rfl
  · have hhead : Token.demand [.define, .name name, .equals] = 0 := rfl
    have hsplit :=
      Token.demand_append [.define, .name name, .equals] body.tokens
    rw [hhead, Nat.zero_add] at hsplit
    exact hsplit

end LineCalc
