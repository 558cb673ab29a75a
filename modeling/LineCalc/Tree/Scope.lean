import LineCalc.Machine.Error
import LineCalc.SymbolTable

/-!
# Scopes

A line is read in a scope: the names that are bound, the storage that a new name
would get, and how deep parentheses may nest.
-/

namespace LineCalc

/-- The storage of the variable that a line defines. -/
inductive Binding
  /-- The variable is bound already and keeps its address. -/
  | existing (name : String) (address : Nat)
  /-- The variable is new; the address is reserved once the line runs. -/
  | new (name : String) (address : Nat)
deriving DecidableEq, Repr

namespace Binding

def name : Binding -> String
  | existing name _ => name
  | new name _ => name

def address : Binding -> Nat
  | existing _ address => address
  | new _ address => address

end Binding

/-- What a line is read against. -/
structure Scope where
  symbols : SymbolTable
  /-- The address of the next new variable, or why there is none. -/
  nextAddress : Except MachineError Nat
  /-- How many parentheses may be open at once. -/
  maxDepth : Nat

namespace Scope

/-- The storage of a variable that is defined in this scope. -/
def bind (scope : Scope) (name : String) : Except MachineError Binding :=
  match scope.symbols.lookup? name with
  | some address => .ok (.existing name address)
  | none => scope.nextAddress.map (.new name)

/-- The address of a variable.  Names that are not bound have none, and no line
that uses one is accepted. -/
def address (scope : Scope) (name : String) : Nat :=
  (scope.symbols.lookup? name).getD 0

end Scope

end LineCalc
