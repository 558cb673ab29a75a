import LineCalc.Instruction.Basic
import LineCalc.Tree.Statement

/-!
# Code of trees

The code of a tree computes the tree's value into a given register and works in
the registers from a free one on.  It writes no register twice: a chain is
accumulated in ever new registers, and its last accumulator is moved to where
the value is wanted.
-/

namespace LineCalc

/-- The register of an expression's value before it is moved, if its code works
in the registers from `free` on. -/
def Expression.accumulator (free : Nat) : Expression -> Nat
  | .term _ => free
  | .chain left _ right => free + left.registers + right.registers + 1

/-- The register of a term's value before it is moved, if its code works in the
registers from `free` on. -/
def Term.accumulator (free : Nat) : Term -> Nat
  | .factor _ => free
  | .chain left _ right => free + left.registers + right.registers + 1

/-- The result of a chain goes behind the registers of both operands and the
register that takes the value of the right one. -/
theorem Expression.accumulator_chain (free : Nat) (left : Expression)
    (op : Additive) (right : Term) :
    (Expression.chain left op right).accumulator free =
      free + left.registers + 1 + right.registers := by
  rw [Expression.accumulator, Nat.add_right_comm]

theorem Term.accumulator_chain (free : Nat) (left : Term) (op : Multiplicative)
    (right : Factor) :
    (Term.chain left op right).accumulator free =
      free + left.registers + 1 + right.registers := by
  rw [Term.accumulator, Nat.add_right_comm]

mutual

def Expression.accumulate (address : String -> Nat) (free : Nat) :
    Expression -> List Instruction
  | .term term =>
      term.accumulate address (free + 1) ++
        [.move (term.accumulator (free + 1)) free]
  | .chain left op right =>
      let operand := free + left.registers
      let inner := operand + 1
      left.accumulate address free ++
        right.accumulate address inner ++
          [.move (right.accumulator inner) operand] ++
        [.binary (.additive op) (left.accumulator free) operand
          (inner + right.registers)]

def Term.accumulate (address : String -> Nat) (free : Nat) :
    Term -> List Instruction
  | .factor factor => factor.code address free (free + 1)
  | .chain left op right =>
      let operand := free + left.registers
      let inner := operand + 1
      left.accumulate address free ++
        right.code address operand inner ++
        [.binary (.multiplicative op) (left.accumulator free) operand
          (inner + right.registers)]

def Factor.code (address : String -> Nat) (target free : Nat) :
    Factor -> List Instruction
  | .number value => [.loadImmediate target value]
  | .name name => [.load target (address name)]
  | .group inner =>
      inner.accumulate address free ++ [.move (inner.accumulator free) target]

end

def Expression.code (address : String -> Nat) (target free : Nat)
    (e : Expression) : List Instruction :=
  e.accumulate address free ++ [.move (e.accumulator free) target]

/-- A program for one line and the storage of the variable that it defines. -/
structure Compiled where
  code : List Instruction
  binding : Option Binding
  /-- How many registers the program uses. -/
  registers : Nat
deriving DecidableEq, Repr

namespace Statement

/-- The program of a line: the value goes to the first register and, in a
definition, from there to the variable. -/
def program (address : String -> Nat) (first : Nat) (statement : Statement) :
    List Instruction :=
  statement.body.code address first (first + 1) ++
    (statement.binding.map fun binding =>
      Instruction.store binding.address first).toList ++
    [.halt]

def compiled (scope : Scope) (first : Nat) (statement : Statement) :
    Compiled where
  code := statement.program scope.address first
  binding := statement.binding
  registers := 1 + statement.body.registers

end Statement

/-- The program of the line that a stream holds.  It works in the registers from
the first one on. -/
def Compiled.ofStream (scope : Scope) (stream : TokenStream)
    (first : Nat := 0) : Except ParseFailure Compiled :=
  (Statement.parse scope stream).map (Statement.compiled scope first)

end LineCalc
