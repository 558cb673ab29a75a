import LineCalc.Machine.Compile
import LineCalc.Proofs.Statement.Parsing

/-!
# Lines that compile

The lines that compile on a machine are the sentences of the grammar that meet
three conditions: names that are used are bound, parentheses nest as deep as
allowed, and a new variable finds room on the heap.  The storage of the variable
is then settled by the symbol table and the heap alone.
-/

namespace LineCalc

/-- What makes a line acceptable on a machine. -/
structure Machine.Accepts (machine : Machine) (symbols : SymbolTable)
    (maxDepth : Nat) (tokens : List Token) : Prop where
  sentence : Derives .line tokens
  bound : forall name, .name name ∈ Token.expressionPart tokens ->
    (symbols.lookup? name).isSome
  nests : NestsWithin maxDepth tokens
  room : forall name, Token.definedName? tokens = some name ->
    symbols.lookup? name = none ->
    machine.heap + 1 ≤ machine.stack

def Machine.storage (machine : Machine) (symbols : SymbolTable)
    (name : String) : Binding :=
  match symbols.lookup? name with
  | some address => .existing name address
  | none => .new name machine.heap

/-!
## Parts of a parse tree
-/

theorem Expression.tokens_ne_define_cons (e : Expression) (rest : List Token) :
    e.tokens ≠ .define :: rest := by
  intro h
  exact absurd (by simp [h]) e.define_notMem_tokens

theorem Line.definedName?_tokens (line : Line) :
    Token.definedName? line.tokens = line.defined := by
  rcases line with ⟨defined, body⟩
  cases defined with
  | some name => rfl
  | none =>
      simp only [Line.tokens]
      unfold Token.definedName?
      split
      · rename_i name rest hbody
        exact absurd hbody (body.tokens_ne_define_cons _)
      · rfl

theorem Line.expressionPart_tokens (line : Line) :
    Token.expressionPart line.tokens = line.body.tokens := by
  rcases line with ⟨defined, body⟩
  cases defined with
  | some name => rfl
  | none =>
      simp only [Line.tokens]
      unfold Token.expressionPart
      split
      · rename_i name rest hbody
        exact absurd hbody (body.tokens_ne_define_cons _)
      · rfl

theorem Line.nestsWithin_tokens {limit : Nat} (line : Line) :
    NestsWithin limit line.tokens <-> NestsWithin limit line.body.tokens := by
  rcases line with ⟨defined, body⟩
  cases defined with
  | none => rfl
  | some name =>
      simp only [Line.tokens]
      rw [nestsWithin_cons_of_ne (by simp) (by simp),
        nestsWithin_cons_of_ne (by simp) (by simp),
        nestsWithin_cons_of_ne (by simp) (by simp)]

/-!
## Storage on a machine
-/

namespace Machine

theorem name_storage (machine : Machine) (symbols : SymbolTable)
    (name : String) :
    (machine.storage symbols name).name = name := by
  unfold storage
  split <;> rfl

theorem bind_scope_eq_ok_iff {machine : Machine} {symbols : SymbolTable}
    {maxDepth : Nat} {name : String} {binding : Binding} :
    (machine.scope symbols maxDepth).bind name = .ok binding <->
      binding = machine.storage symbols name ∧
        (symbols.lookup? name = none -> machine.heap + 1 ≤ machine.stack) := by
  unfold Scope.bind storage scope nextHeapAddress
  simp only
  cases hlookup : symbols.lookup? name with
  | some address =>
      simp [eq_comm]
  | none =>
      by_cases hroom : machine.heap + 1 ≤ machine.stack
      · simp [hroom, Except.map, eq_comm]
      · simp [hroom, Except.map]

theorem bind_scope_eq_error_iff {machine : Machine} {symbols : SymbolTable}
    {maxDepth : Nat} {name : String} {cause : MachineError} :
    (machine.scope symbols maxDepth).bind name = .error cause <->
      symbols.lookup? name = none ∧ machine.stack < machine.heap + 1 ∧
        cause = .heapExhausted 1 machine.heap machine.stack := by
  unfold Scope.bind scope nextHeapAddress
  cases symbols.lookup? name with
  | some address => simp
  | none =>
      by_cases hroom : machine.heap + 1 ≤ machine.stack
      · have hnot : ¬ machine.stack < machine.heap + 1 := Nat.not_lt.mpr hroom
        simp [hroom, hnot, Except.map]
      · simp [hroom, Except.map, Nat.not_le.mp hroom, eq_comm]

theorem compile_eq_ok_iff {machine : Machine} {symbols : SymbolTable}
    {maxDepth : Nat} {stream : TokenStream} {compiled : Compiled} :
    (machine.compile symbols maxDepth stream).2 = .ok compiled <->
      exists statement,
        Statement.parse (machine.scope symbols maxDepth) stream =
          .ok statement ∧
        statement.compiled
          (machine.scope symbols maxDepth) machine.registersInUse =
            compiled := by
  unfold compile Compiled.ofStream
  cases Statement.parse (machine.scope symbols maxDepth) stream with
  | error failure => simp [Except.map]
  | ok statement => simp [Except.map]

theorem registersInUse_compile {machine : Machine} {symbols : SymbolTable}
    {maxDepth : Nat} {stream : TokenStream} {statement : Statement}
    (hparse : Statement.parse (machine.scope symbols maxDepth) stream =
      .ok statement) :
    (machine.compile symbols maxDepth stream).1.registersInUse =
      machine.registersInUse + (1 + statement.body.registers) := by
  simp only [compile, Compiled.ofStream, hparse]
  rfl

theorem definedName?_of_parse {machine : Machine} {symbols : SymbolTable}
    {maxDepth : Nat} {stream : TokenStream} {statement : Statement}
    (hparse : Statement.parse (machine.scope symbols maxDepth) stream =
      .ok statement) :
    Token.definedName? stream.lineTokens =
      statement.binding.map Binding.name := by
  rw [← (Statement.parse_eq_ok_iff.mp hparse).left, Line.definedName?_tokens]
  rfl

theorem compile_eq_error_iff {machine : Machine} {symbols : SymbolTable}
    {maxDepth : Nat} {stream : TokenStream} {error : ParseError} :
    (machine.compile symbols maxDepth stream).2 = .error error <->
      exists registers,
        Statement.parse (machine.scope symbols maxDepth) stream =
          .error ⟨error, registers⟩ := by
  unfold compile Compiled.ofStream
  cases Statement.parse (machine.scope symbols maxDepth) stream with
  | error failure =>
      rcases failure with ⟨other, registers⟩
      simp [Except.map]
  | ok statement => simp [Except.map]

theorem accepts_of_parse {machine : Machine} {symbols : SymbolTable}
    {maxDepth : Nat} {stream : TokenStream} {statement : Statement}
    (h : Statement.parse (machine.scope symbols maxDepth) stream = .ok statement) :
    machine.Accepts symbols maxDepth stream.lineTokens := by
  rcases Statement.parse_eq_ok_iff.mp h with ⟨htokens, hadmits, hbind⟩
  rw [← htokens]
  constructor
  · exact derives_tokens_line statement.line
  · rw [Line.expressionPart_tokens]
    exact hadmits.bound
  · exact (Line.nestsWithin_tokens statement.line).mpr hadmits.nests
  · intro name hname hlookup
    rw [Line.definedName?_tokens] at hname
    rcases Option.map_eq_some_iff.mp hname with ⟨binding, hbinding, rfl⟩
    exact (bind_scope_eq_ok_iff.mp (hbind binding hbinding)).right hlookup

theorem parse_of_accepts {machine : Machine} {symbols : SymbolTable}
    {maxDepth : Nat} {stream : TokenStream}
    (h : machine.Accepts symbols maxDepth stream.lineTokens) :
    exists statement,
      Statement.parse (machine.scope symbols maxDepth) stream =
        .ok statement := by
  rcases derives_line_iff.mp h.sentence with ⟨line, htokens⟩
  have hbound := h.bound
  have hnests := h.nests
  have hroom := h.room
  rw [← htokens, Line.expressionPart_tokens] at hbound
  rw [← htokens, Line.nestsWithin_tokens] at hnests
  rw [← htokens, Line.definedName?_tokens] at hroom
  refine ⟨⟨line.defined.map (machine.storage symbols), line.body⟩, ?_⟩
  apply Statement.parse_eq_ok_iff.mpr
  refine ⟨?_, ⟨hbound, hnests⟩, ?_⟩
  · rw [← htokens]
    rcases line with ⟨defined, body⟩
    cases defined with
    | none => rfl
    | some name => simp [Statement.line, name_storage]
  · intro binding hbinding
    rcases Option.map_eq_some_iff.mp hbinding with ⟨name, hname, rfl⟩
    rw [name_storage]
    exact bind_scope_eq_ok_iff.mpr ⟨rfl, hroom name hname⟩

/-- Exactly the acceptable lines compile, and the variable that a line defines
is stored where the symbol table and the heap say. -/
theorem compile_accepts_iff (machine : Machine) (symbols : SymbolTable)
    (maxDepth : Nat) (stream : TokenStream) :
    ((exists compiled,
      (machine.compile symbols maxDepth stream).2 = .ok compiled) <->
        machine.Accepts symbols maxDepth stream.lineTokens) ∧
      forall compiled, (machine.compile symbols maxDepth stream).2 =
          .ok compiled ->
        compiled.binding =
          (Token.definedName? stream.lineTokens).map
            (machine.storage symbols) := by
  constructor
  · constructor
    · intro h
      rcases h with ⟨compiled, hcompiled⟩
      rcases compile_eq_ok_iff.mp hcompiled with ⟨statement, hparse, _⟩
      exact accepts_of_parse hparse
    · intro haccepts
      rcases parse_of_accepts haccepts with ⟨statement, hparse⟩
      exact ⟨_, compile_eq_ok_iff.mpr ⟨statement, hparse, rfl⟩⟩
  · intro compiled hcompiled
    rcases compile_eq_ok_iff.mp hcompiled with ⟨statement, hparse, rfl⟩
    rcases Statement.parse_eq_ok_iff.mp hparse with ⟨htokens, _, hbind⟩
    rw [← htokens, Line.definedName?_tokens]
    rcases statement with ⟨binding, body⟩
    cases binding with
    | none => rfl
    | some binding =>
        have hstorage := (bind_scope_eq_ok_iff.mp (hbind binding rfl)).left
        simp only [Statement.compiled, Statement.line, Option.map_some]
        rw [← hstorage]

end Machine

end LineCalc
