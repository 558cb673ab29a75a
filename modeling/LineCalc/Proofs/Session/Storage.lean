import LineCalc.Proofs.Machine.Program
import LineCalc.Proofs.Session.Environment
import LineCalc.Proofs.Statement.Acceptance
import LineCalc.Session.History

/-!
# How a session stores its variables

Between lines a session holds an environment: the variable in place `i` is bound
to the `i`-th heap address, that cell holds its value, and the heap ends behind
the last variable.  No register is in use.  Storing the value of a new or of a
bound variable leads to the environment in which it is defined.
-/

namespace LineCalc

namespace Environment

def valueOf (environment : Environment) (name : String) : Binary64 :=
  (environment.lookup name).getD .nan

def afterLine (environment : Environment) (line : Line) : Environment :=
  match line.defined with
  | none => environment
  | some name => environment.define name (line.body.value environment.valueOf)

theorem nodup_names_afterLine {environment : Environment} (line : Line)
    (h : environment.names.Nodup) :
    (environment.afterLine line).names.Nodup := by
  unfold afterLine
  split
  · exact h
  · exact nodup_names_define _ _ h

end Environment

/-- What a machine and a symbol table have in common when they store an
environment from an address on. -/
structure Machine.Stores (machine : Machine)
    (symbols : SymbolTable) (base : Nat)
    (environment : Environment) : Prop where
  heap : machine.heap = base + environment.length
  entries : symbols.entries = environment.names.mapIdx fun i name =>
    (name, base + i)
  cells : forall i, machine.word? (base + i) =
    environment[i]?.map fun entry => .data entry.2

namespace Machine.Stores

variable {machine : Machine} {symbols : SymbolTable} {base : Nat}
  {environment : Environment}

theorem lookup? (h : machine.Stores symbols base environment) (name : String) :
    symbols.lookup? name =
      if name ∈ environment.names then
        some (base + environment.place name)
      else
        none := by
  rw [SymbolTable.lookup?, h.entries]
  exact environment.lookup_mapIdx_names base name

theorem lookup?_isSome (h : machine.Stores symbols base environment)
    (name : String) :
    (symbols.lookup? name).isSome = true <-> name ∈ environment.names := by
  rw [h.lookup?]
  split <;> simp_all

theorem read? (h : machine.Stores symbols base environment) (i : Nat) :
    machine.read? (base + i) = environment[i]?.map Prod.snd := by
  rw [Machine.read?, h.cells]
  cases environment[i]? <;> rfl

theorem value (h : machine.Stores symbols base environment) (name : String) :
    machine.read? (base + environment.place name) =
      environment.lookup name := by
  rw [h.read?, Environment.lookup_eq_getElem?_place]

theorem address_storage (h : machine.Stores symbols base environment)
    (name : String) :
    (machine.storage symbols name).address = base + environment.place name := by
  unfold Machine.storage
  rw [h.lookup?]
  split
  · rename_i address haddress
    split at haddress
    · exact (Option.some.inj haddress).symm
    · cases haddress
  · rename_i hnone
    split at hnone
    · cases hnone
    · rename_i hfresh
      rw [Environment.place_of_notMem hfresh]
      exact h.heap

theorem supplies {other : Machine} {tokens : List Token} {maxDepth : Nat}
    (h : machine.Stores symbols base environment)
    (hcells : forall cell, base ≤ cell -> other.word? cell = machine.word? cell)
    (hbound : forall name, .name name ∈ tokens ->
      (symbols.lookup? name).isSome) :
    other.Supplies (machine.scope symbols maxDepth).address
      environment.valueOf tokens := by
  intro name hname
  have hmem := (h.lookup?_isSome name).mp (hbound name hname)
  have haddress : (machine.scope symbols maxDepth).address name =
      base + environment.place name := by
    rw [Scope.address, Machine.scope, h.lookup?, if_pos hmem, Option.getD_some]
  have hread : other.read? (base + environment.place name) =
      machine.read? (base + environment.place name) := by
    rw [Machine.read?, Machine.read?, hcells _ (Nat.le_add_right base _)]
  rw [haddress, hread, h.value name, Environment.valueOf]

theorem define {after : Machine} {name : String} {value : Binary64}
    (h : machine.Stores symbols base environment)
    (hcells : forall cell, base ≤ cell -> after.word? cell =
      if base + environment.place name =
        cell then some (.data value) else machine.word? cell)
    (hheap : after.heap =
      if name ∈ environment.names then machine.heap else machine.heap + 1) :
    after.Stores (symbols.insert name machine.heap) base
      (environment.define name value) := by
  have hnames := environment.names_define name value
  constructor
  · rw [hheap, h.heap, Environment.length_define]
    split
    · rfl
    · rw [Nat.add_assoc]
  · rw [hnames]
    unfold SymbolTable.insert
    rw [h.lookup?]
    by_cases hmem : name ∈ environment.names
    · simp only [hmem, ↓reduceIte]
      exact h.entries
    · simp only [hmem, ↓reduceIte]
      rw [List.mapIdx_concat, h.entries, h.heap, ← environment.length_names]
  · intro i
    rw [hcells _ (Nat.le_add_right base i),
      Environment.getElem?_define, h.cells]
    by_cases hplace : i = environment.place name
    · simp [hplace]
    · have hne : base + environment.place name ≠ base + i := by omega
      rw [if_neg hne, if_neg hplace]

end Machine.Stores

/-- A session at rest that holds an environment under a configuration. -/
structure Session.Holds (session : Session) (config : Config)
    (environment : Environment) : Prop where
  heapBase : session.machine.heapBase = config.heapBase
  stack : session.machine.stack = config.stackTop
  maxDepth : session.maxDepth = config.maxDepth
  stores : session.machine.Stores session.symbols config.heapBase environment
  names : environment.names.Nodup
  idle : session.machine.registersInUse = 0
  cleared : session.machine.registers = .empty

namespace Session.Holds

theorem new (config : Config) : (Session.new config).Holds config [] where
  heapBase := rfl
  stack := rfl
  maxDepth := rfl
  stores := ⟨rfl, rfl, fun _ => rfl⟩
  names := List.nodup_nil
  idle := rfl
  cleared := rfl

variable {session : Session} {config : Config} {environment : Environment}

theorem valueOf? (h : session.Holds config environment) (name : String) :
    session.valueOf? name = environment.lookup name := by
  rw [Session.valueOf?, Session.lookup?, h.stores.lookup?]
  by_cases hname : name ∈ environment.names
  · have hsome := (environment.lookup_isSome_iff name).mpr hname
    rcases Option.isSome_iff_exists.mp hsome with ⟨value, hlookup⟩
    rw [if_pos hname, Option.map_some, h.stores.value name, hlookup]
    rfl
  · rw [if_neg hname, (environment.lookup_eq_none_iff name).mpr hname,
      Option.map_none]

theorem resetRegisters_claimRegisters (h : session.Holds config environment)
    (count : Nat) :
    Session.resetRegisters { session with
      machine := session.machine.claimRegisters count } =
      session := by
  rcases session with ⟨machine, symbols, maxDepth⟩
  have hidle := h.idle
  have hcleared := h.cleared
  rcases machine with
    ⟨memory, registers, registersInUse, codeLength, heapBase, heap, stack⟩
  simp only at hidle hcleared
  subst hidle hcleared
  rfl

end Session.Holds

end LineCalc
