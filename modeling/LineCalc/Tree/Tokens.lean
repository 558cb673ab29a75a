import LineCalc.Tree.Statement

/-!
# Tokens of trees

Every tree stands for the tokens that it was read from, and so does an
expression that has been read in part.
-/

namespace LineCalc

/-!
## Trees
-/

mutual

def Expression.tokens : Expression -> List Token
  | .term term => term.tokens
  | .chain left op right =>
      left.tokens ++ .operator (.additive op) :: right.tokens

def Term.tokens : Term -> List Token
  | .factor factor => factor.tokens
  | .chain left op right =>
      left.tokens ++ .operator (.multiplicative op) :: right.tokens

def Factor.tokens : Factor -> List Token
  | .number value => [.number value]
  | .name name => [.name name]
  | .group inner => .openParen :: inner.tokens ++ [.closeParen]

end

def Statement.tokens (statement : Statement) : List Token :=
  match statement.binding with
  | none => statement.body.tokens
  | some binding =>
      .define :: .name binding.name :: .equals :: statement.body.tokens

/-!
## Expressions read in part
-/

def PendingSum.tokens (sum : PendingSum) : List Token :=
  match sum with
  | none => []
  | some (left, op) => left.tokens ++ [.operator (.additive op)]

def PendingProduct.tokens (product : PendingProduct) : List Token :=
  match product with
  | none => []
  | some (left, op) => left.tokens ++ [.operator (.multiplicative op)]

def OperandContext.tokens (context : OperandContext) : List Token :=
  context.sum.tokens ++ context.product.tokens

/-- The tokens up to the innermost open parenthesis; the list of groups starts
with that one. -/
def OpenGroup.tokens : List OpenGroup -> List Token
  | [] => []
  | group :: outer => tokens outer ++ group.outside.tokens ++ [.openParen]

def Reading.tokens : Reading -> List Token
  | .atOperand groups context => OpenGroup.tokens groups ++ context.tokens
  | .atOperator groups sum term =>
      OpenGroup.tokens groups ++ sum.tokens ++ term.tokens

@[simp] theorem PendingSum.tokens_complete (sum : PendingSum) (term : Term) :
    (sum.complete term).tokens = sum.tokens ++ term.tokens := by
  rcases sum with _ | ⟨left, op⟩ <;>
    simp [PendingSum.complete, PendingSum.tokens, Expression.tokens]

@[simp] theorem PendingProduct.tokens_complete (product : PendingProduct)
    (factor : Factor) :
    (product.complete factor).tokens = product.tokens ++ factor.tokens := by
  rcases product with _ | ⟨left, op⟩ <;>
    simp [PendingProduct.complete, PendingProduct.tokens, Term.tokens]

end LineCalc
