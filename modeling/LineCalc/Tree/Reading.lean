import LineCalc.Token.Basic
import LineCalc.Tree.Basic
import LineCalc.Tree.ParseError
import LineCalc.Tree.Scope

/-!
# Reading expressions

An expression is read token by token.  What has been read at any moment is a
stack of open parentheses, each with the operands that wait in front of it, and
either a context that waits for a factor or a term that may go on.
-/

namespace LineCalc

/-!
## Operands in waiting
-/

/-- A sum that waits for its next term, such as `a - b +`. -/
abbrev PendingSum := Option (Expression × Additive)

/-- A product that waits for its next factor, such as `a * b /`. -/
abbrev PendingProduct := Option (Term × Multiplicative)

/-- The sum completed by a term; where no sum waits, the term alone. -/
def PendingSum.complete (sum : PendingSum) (term : Term) : Expression :=
  match sum with
  | none => .term term
  | some (left, op) => .chain left op term

/-- The product completed by a factor; where no product waits, the factor
alone. -/
def PendingProduct.complete (product : PendingProduct)
    (factor : Factor) : Term :=
  match product with
  | none => .factor factor
  | some (left, op) => .chain left op factor

/-- What waits for the factor that comes next: in `a - b * c /` the sum `a -`
and the product `b * c /`. -/
structure OperandContext where
  sum : PendingSum
  product : PendingProduct

def OperandContext.start : OperandContext := ⟨none, none⟩

/-- A parenthesis still open: its offset and what waits in front of it. -/
structure OpenGroup where
  start : Nat
  outside : OperandContext

/-- An expression read in part. -/
inductive Reading
  /-- A factor has to follow. -/
  | atOperand (groups : List OpenGroup) (context : OperandContext)
  /-- An operator, a closing parenthesis or the end may follow. -/
  | atOperator (groups : List OpenGroup) (sum : PendingSum) (term : Term)

/-!
## Registers claimed so far

An expression and a term claim an accumulator when they start, and every
operator claims a register for the operand behind it.  The register of an
operation's result is claimed when that operand is complete.
-/

def PendingSum.claimed (sum : PendingSum) : Nat :=
  match sum with
  | none => 1
  | some (left, _) => left.registers + 1

def PendingProduct.claimed (product : PendingProduct) : Nat :=
  match product with
  | none => 1
  | some (left, _) => left.registers + 1

def OperandContext.claimed (context : OperandContext) : Nat :=
  context.sum.claimed + context.product.claimed

def OpenGroup.claimed : List OpenGroup -> Nat
  | [] => 0
  | group :: outer => claimed outer + group.outside.claimed

/-- The registers claimed by an expression read in part, the line's own among
them. -/
def Reading.claimed : Reading -> Nat
  | .atOperand groups context => 1 + OpenGroup.claimed groups + context.claimed
  | .atOperator groups sum term =>
      1 + OpenGroup.claimed groups + sum.claimed + term.registers

/-!
## Steps
-/

namespace Reading

def start : Reading := .atOperand [] .start

def next (scope : Scope) : Reading -> Lexeme -> Except ParseFailure Reading
  | reading@(.atOperand groups context), found =>
      match found.token with
      | .number value =>
          .ok (.atOperator groups context.sum
            (context.product.complete (.number value)))
      | .name name =>
          match scope.symbols.lookup? name with
          | some _ =>
              .ok (.atOperator groups context.sum
                (context.product.complete (.name name)))
          | none => .error ⟨.undefinedVariable name found.span, reading.claimed⟩
      | .openParen =>
          if groups.length < scope.maxDepth then
            .ok (.atOperand (⟨found.span.start, context⟩ :: groups) .start)
          else
            .error ⟨.tooDeep scope.maxDepth found.span, reading.claimed⟩
      | _ => .error ⟨.unexpected .operand found, reading.claimed⟩
  | reading@(.atOperator groups sum term), found =>
      match found.token with
      | .operator (.multiplicative op) =>
          .ok (.atOperand groups ⟨sum, some (term, op)⟩)
      | .operator (.additive op) =>
          .ok (.atOperand groups ⟨some (sum.complete term, op), none⟩)
      | .closeParen =>
          let inner := sum.complete term
          match groups with
          | [] => .error ⟨.trailingInput found, 1 + inner.registers⟩
          | group :: outer =>
              .ok (.atOperator outer group.outside.sum
                (group.outside.product.complete (.group inner)))
      | _ => .error ⟨.unexpected .continuation found, reading.claimed⟩

/-- The expression that has been read when the input ends. -/
def finish : Reading -> Lexeme -> Except ParseFailure Expression
  | reading@(.atOperand ..), found =>
      .error ⟨.unexpected .operand found, reading.claimed⟩
  | .atOperator groups sum term, found =>
      let inner := sum.complete term
      match groups with
      | [] => .ok inner
      | group :: _ =>
          .error ⟨.unclosedParen group.start found,
            1 + OpenGroup.claimed groups + inner.registers⟩

/-- Reads on up to the first end of input. -/
def run (scope : Scope) (closing : Lexeme) :
    Reading -> List Lexeme -> Except ParseFailure Expression
  | reading, [] => reading.finish closing
  | reading, found :: rest =>
      if found.token = .endOfInput then
        reading.finish found
      else
        match reading.next scope found with
        | .ok reading => run scope closing reading rest
        | .error failure => .error failure

end Reading

end LineCalc
