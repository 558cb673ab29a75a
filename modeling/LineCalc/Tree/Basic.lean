import LineCalc.Operator

/-!
# Expression trees

The trees follow the grammar of lines, in which `*` and `/` bind tighter than
`+` and `-`, both levels associate to the left, and parentheses group:

* an expression is a term, or an expression, `+` or `-`, and a term; * a term is
a factor, or a term, `*` or `/`, and a factor; * a factor is a number, a
variable's name or an expression in parentheses.

Each tree says how many registers its code needs besides the one that takes its
value.
-/

namespace LineCalc

mutual

inductive Expression
  | term (term : Term)
  | chain (left : Expression) (op : Additive) (right : Term)

inductive Term
  | factor (factor : Factor)
  | chain (left : Term) (op : Multiplicative) (right : Factor)

inductive Factor
  | number (value : Binary64)
  | name (name : String)
  | group (inner : Expression)

end

/-!
## Registers

A chain starts in an accumulator of its own.  Every further operand takes a
register for its value and one for the result of the operation.
-/

mutual

def Expression.registers : Expression -> Nat
  | .term term => 1 + term.registers
  | .chain left _ right => left.registers + right.registers + 2

def Term.registers : Term -> Nat
  | .factor factor => 1 + factor.registers
  | .chain left _ right => left.registers + right.registers + 2

def Factor.registers : Factor -> Nat
  | .number _ => 0
  | .name _ => 0
  | .group inner => inner.registers

end

end LineCalc
