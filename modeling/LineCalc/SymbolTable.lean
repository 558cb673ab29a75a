/-!
# Symbol tables

A symbol table binds names to addresses.  Entries are never removed, and a name
keeps the address it was given first.
-/

namespace LineCalc

/-- The names that are bound, in the order in which they were. -/
structure SymbolTable where
  entries : List (String × Nat)
deriving DecidableEq, Repr

namespace SymbolTable

def empty : SymbolTable := ⟨[]⟩

def lookup? (table : SymbolTable) (name : String) : Option Nat :=
  table.entries.lookup name

/-- The table in which `name` is bound, to `address` if it was not before. -/
def insert (table : SymbolTable) (name : String) (address : Nat) :
    SymbolTable :=
  match table.lookup? name with
  | some _ => table
  | none => ⟨table.entries ++ [(name, address)]⟩

/-- The entries ordered by address. -/
def toList (table : SymbolTable) : List (String × Nat) :=
  table.entries.mergeSort fun left right => left.2 ≤ right.2

end SymbolTable

end LineCalc
