import LineCalc.Binary64.Arithmetic

/-!
# Operators

The four binary operators, split by how tightly they bind: a sum is a chain of
additive operators over products, a product a chain of multiplicative operators
over factors.
-/

namespace LineCalc

/-- The operators that join the terms of a sum. -/
inductive Additive
  | plus
  | minus
deriving DecidableEq, Repr

/-- The operators that join the factors of a product. -/
inductive Multiplicative
  | times
  | over
deriving DecidableEq, Repr

inductive Operator
  | additive (op : Additive)
  | multiplicative (op : Multiplicative)
deriving DecidableEq, Repr

namespace Operator

def ofSymbol? : Char -> Option Operator
  | '+' => some (additive .plus)
  | '-' => some (additive .minus)
  | '*' => some (multiplicative .times)
  | '/' => some (multiplicative .over)
  | _ => none

def symbol : Operator -> Char
  | additive .plus => '+'
  | additive .minus => '-'
  | multiplicative .times => '*'
  | multiplicative .over => '/'

/-- The name of the operator in listings and in JSON. -/
def mnemonic : Operator -> String
  | additive .plus => "add"
  | additive .minus => "sub"
  | multiplicative .times => "mul"
  | multiplicative .over => "div"

def apply : Operator -> Binary64 -> Binary64 -> Binary64
  | additive .plus => Binary64.add
  | additive .minus => Binary64.sub
  | multiplicative .times => Binary64.mul
  | multiplicative .over => Binary64.div

theorem ofSymbol?_eq_some_iff {c : Char} {op : Operator} :
    ofSymbol? c = some op <-> c = op.symbol := by
  constructor
  · intro h
    unfold ofSymbol? at h
    split at h <;> simp_all <;> subst h <;> rfl
  · rintro rfl
    rcases op with op | op <;> cases op <;> rfl

end Operator

end LineCalc
