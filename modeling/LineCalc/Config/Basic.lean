/-!
# Configurations

The memory layout and the limits that a calculator runs with.
-/

namespace LineCalc

structure Config where
  /-- The first heap address.  Programs are loaded below it, so it is also the
  largest number of instructions. -/
  heapBase : Nat
  /-- The address up to which the heap may grow. -/
  stackTop : Nat
  /-- How many parentheses may be open at once. -/
  maxDepth : Nat
deriving DecidableEq, Repr

/-- The configuration of a calculator that is given none. -/
def Config.standard : Config where
  heapBase := 1000
  stackTop := 1000000000
  maxDepth := 256

end LineCalc
