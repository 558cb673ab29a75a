/-!
# Refusals of the machine

A machine refuses programs that it cannot hold or that would run off their end,
and reservations for which the heap has no room.
-/

namespace LineCalc

inductive MachineError
  /-- A program of `length` instructions, of which only `limit` fit. -/
  | programTooLarge (length limit : Nat)
  /-- A program whose last instruction is not `halt`. -/
  | missingHalt
  /-- A reservation of `count` cells from address `heap` on, which would reach
  past `stack`. -/
  | heapExhausted (count heap stack : Nat)
deriving DecidableEq, Repr

namespace MachineError

def message : MachineError -> String
  | programTooLarge length limit =>
      "program of " ++ length.repr ++
        " instructions does not fit below address " ++ limit.repr
  | missingHalt => "program does not end with halt"
  | heapExhausted count heap stack =>
      "heap exhausted: allocating " ++ count.repr ++ " at " ++ heap.repr ++
        " would reach the stack at " ++ stack.repr

end MachineError

end LineCalc
