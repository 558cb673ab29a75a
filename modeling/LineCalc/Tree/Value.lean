import LineCalc.Tree.Basic

/-!
# Values of trees

The value of a tree, where the values of names are given.
-/

namespace LineCalc

mutual

def Expression.value (valueOf : String -> Binary64) : Expression -> Binary64
  | .term term => term.value valueOf
  | .chain left op right =>
      Operator.apply (.additive op) (left.value valueOf) (right.value valueOf)

def Term.value (valueOf : String -> Binary64) : Term -> Binary64
  | .factor factor => factor.value valueOf
  | .chain left op right =>
      Operator.apply (.multiplicative op) (left.value valueOf)
        (right.value valueOf)

def Factor.value (valueOf : String -> Binary64) : Factor -> Binary64
  | .number value => value
  | .name name => valueOf name
  | .group inner => inner.value valueOf

end

end LineCalc
