import LineCalc.Proofs.Session.Storage

/-!
# What a line does to a session

A line on a session at rest has one of three outcomes: it is not parsed, its
program is too long, or it runs.  In the first two the session is as before; in
the third one the session holds the environment after the line.  Compiling the
line tells the outcome without running it.
-/

namespace LineCalc

namespace Session

def parse (session : Session) (line : String) : Except ParseFailure Statement :=
  Statement.parse (session.machine.scope session.symbols session.maxDepth)
    (.scan line)

def program (session : Session) (statement : Statement) : List Instruction :=
  statement.program
    (session.machine.scope session.symbols session.maxDepth).address 0

def commit (session : Session) : Option String -> Session
  | none => session
  | some name =>
      { session with
        machine :=
          { session.machine with
            heap :=
              if (session.symbols.lookup? name).isSome then session.machine.heap
              else session.machine.heap + 1 }
        symbols := session.symbols.insert name session.machine.heap }

theorem define_eq_commit {session : Session} {defined : Option String}
    (hroom : forall name, defined = some name ->
      session.symbols.lookup? name = none ->
      session.machine.heap + 1 ≤ session.machine.stack) :
    session.define (defined.map (session.machine.storage session.symbols)) =
      .ok (session.commit defined) := by
  cases defined with
  | none => rfl
  | some name =>
      cases hlookup : session.symbols.lookup? name with
      | some address =>
          simp [define, commit, Machine.storage, SymbolTable.insert, hlookup]
      | none =>
          have hspace := hroom name rfl hlookup
          simp [define, commit, Machine.storage, Machine.allocate,
            Machine.nextHeapAddress, Except.map, hlookup, hspace]

/-- The session whose program is about to run: it is loaded, and storage for the
variable is taken. -/
def ready (session : Session) (count : Nat) (statement : Statement) : Session :=
  Session.commit
    { session with
      machine :=
    (session.machine.claimRegisters count).loaded (session.program statement) }
    statement.line.defined

section

variable (session : Session) (count : Nat) (statement : Statement)

theorem word?_ready (cell : Nat) :
    (session.ready count statement).machine.word? cell =
      ((session.machine.claimRegisters count).loaded
        (session.program statement)).word? cell := by
  unfold ready
  cases statement.line.defined <;> rfl

theorem codeLength_ready :
    (session.ready count statement).machine.codeLength =
      (session.program statement).length := by
  unfold ready
  cases statement.line.defined <;> rfl

theorem heapBase_ready :
    (session.ready count statement).machine.heapBase =
      session.machine.heapBase := by
  unfold ready
  cases statement.line.defined <;> exact Machine.heapBase_loaded _ _

theorem stack_ready :
    (session.ready count statement).machine.stack = session.machine.stack := by
  unfold ready
  cases statement.line.defined <;> exact Machine.stack_loaded _ _

theorem maxDepth_ready :
    (session.ready count statement).maxDepth = session.maxDepth := by
  unfold ready
  cases statement.line.defined <;> rfl

theorem heap_ready :
    (session.ready count statement).machine.heap =
      match statement.line.defined with
      | none => session.machine.heap
      | some name =>
          if (session.symbols.lookup? name).isSome then session.machine.heap
          else session.machine.heap + 1 := by
  unfold ready
  cases statement.line.defined with
  | none => exact Machine.heap_loaded _ _
  | some name =>
      simp only [commit, Machine.heap_loaded]
      rfl

theorem symbols_ready :
    (session.ready count statement).symbols =
      match statement.line.defined with
      | none => session.symbols
      | some name => session.symbols.insert name session.machine.heap := by
  unfold ready
  cases statement.line.defined with
  | none => rfl
  | some name =>
      simp only [commit, Machine.heap_loaded]
      rfl

end

/-!
## Compiling
-/

theorem compileLine_of_error {session : Session} {line : String}
    {failure : ParseFailure} (hparse : session.parse line = .error failure) :
    session.compileLine line =
      ({ session with machine := session.machine.claimRegisters failure.registers },
        .error (.parse failure.error)) := by
  unfold parse at hparse
  simp only [compileLine, Machine.compile, Compiled.ofStream, hparse]
  rfl

theorem compileLine_of_ok {session : Session} {line : String}
    {statement : Statement} (hidle : session.machine.registersInUse = 0)
    (hparse : session.parse line = .ok statement) :
    session.compileLine line =
      ({ session with
        machine :=
  session.machine.claimRegisters (1 + statement.body.registers) },
        .ok ⟨session.program statement, statement.binding,
          1 + statement.body.registers⟩) := by
  unfold parse at hparse
  simp only [compileLine, Machine.compile, Compiled.ofStream, hparse, hidle]
  rfl

variable {session : Session} {config : Config} {environment : Environment}

namespace Holds

/-!
## Running
-/

theorem binding_of_parse {line : String} {statement : Statement}
    (hparse : session.parse line = .ok statement) :
    statement.binding =
      statement.line.defined.map (session.machine.storage session.symbols) := by
  rcases Statement.parse_eq_ok_iff.mp hparse with ⟨_, _, hbind⟩
  rcases statement with ⟨binding, body⟩
  cases binding with
  | none => rfl
  | some binding =>
      rw [(Machine.bind_scope_eq_ok_iff.mp (hbind binding rfl)).left]
      simp [Statement.line, Machine.name_storage]

theorem room_of_parse {line name : String} {statement : Statement}
    (hparse : session.parse line = .ok statement)
    (hname : statement.line.defined = some name)
    (hfresh : session.symbols.lookup? name = none) :
    session.machine.heap + 1 ≤ session.machine.stack := by
  rcases Statement.parse_eq_ok_iff.mp hparse with ⟨_, _, hbind⟩
  rcases Option.map_eq_some_iff.mp hname with ⟨binding, hbinding, rfl⟩
  exact (Machine.bind_scope_eq_ok_iff.mp (hbind binding hbinding)).right hfresh

theorem address_of_parse (h : session.Holds config environment) {line : String}
    {statement : Statement} (hparse : session.parse line = .ok statement) :
    statement.binding.map Binding.address =
      statement.line.defined.map fun name =>
        config.heapBase + environment.place name := by
  rw [binding_of_parse hparse, Option.map_map]
  cases statement.line.defined with
  | none => rfl
  | some name => exact congrArg some (h.stores.address_storage name)

/-- A program that fits below the heap runs to the value of its line. -/
theorem evaluates_ready (h : session.Holds config environment) {line : String}
    {statement : Statement} (count : Nat)
    (hparse : session.parse line = .ok statement)
    (hfits : (session.program statement).length ≤ config.heapBase) :
    exists after, (session.ready count statement).machine.Evaluates
      (session.machine.scope session.symbols session.maxDepth).address statement
      (statement.body.value environment.valueOf) after := by
  rcases Statement.parse_eq_ok_iff.mp hparse with ⟨_, hadmits, _⟩
  -- Only the last two conditions depend on the line: its variable is stored
  -- above the heap base, and so are the names that it uses, out of reach of the
  -- program.
  refine ⟨_, Machine.evaluates_program ?_ ?_ ?_ ?_⟩
  · intro i instruction hi
    rw [word?_ready]
    exact Machine.holdsCode_loaded _ _ i instruction hi
  · exact codeLength_ready session count statement
  · intro binding hbinding
    rw [codeLength_ready]
    have haddress := h.address_of_parse hparse
    rw [hbinding] at haddress
    rcases Option.map_eq_some_iff.mp haddress.symm with ⟨name, _, hplace⟩
    have hbelow : config.heapBase ≤ binding.address := by
      rw [← hplace]
      exact Nat.le_add_right _ _
    exact Nat.le_trans hfits hbelow
  · apply h.stores.supplies _ hadmits.bound
    intro cell hcell
    rw [word?_ready, Machine.word?_loaded (Nat.le_trans hfits hcell)]
    rfl

theorem stores_of_evaluates (h : session.Holds config environment)
    {line : String} {statement : Statement} {count : Nat} {after : Machine}
    (hparse : session.parse line = .ok statement)
    (hfits : (session.program statement).length ≤ config.heapBase)
    (hrun : (session.ready count statement).machine.Evaluates
      (session.machine.scope session.symbols session.maxDepth).address statement
      (statement.body.value environment.valueOf) after) :
    after.Stores (session.ready count statement).symbols config.heapBase
      (environment.afterLine statement.line) := by
  have hcells : forall cell, config.heapBase ≤ cell -> after.word? cell =
      if statement.line.defined.map
        (fun name => config.heapBase + environment.place name) =
          some cell then
        some (.data (statement.body.value environment.valueOf))
      else session.machine.word? cell := by
    intro cell hcell
    rw [hrun.cells, h.address_of_parse hparse, word?_ready,
      Machine.word?_loaded (Nat.le_trans hfits hcell)]
    rfl
  have hheap := congrArg Machine.heap hrun.rest
  simp only [heap_ready] at hheap
  rw [symbols_ready]
  unfold Environment.afterLine
  cases hdefined : statement.line.defined with
  | none =>
      rw [hdefined] at hheap hcells
      constructor
      · exact hheap.trans h.stores.heap
      · exact h.stores.entries
      · intro i
        rw [hcells _ (Nat.le_add_right _ i)]
        exact h.stores.cells i
  | some name =>
      rw [hdefined] at hheap hcells
      simp only [h.stores.lookup?_isSome] at hheap
      apply h.stores.define _ hheap
      intro cell hcell
      have hvalue := hcells cell hcell
      simp only [Option.map_some, Option.some.injEq] at hvalue
      exact hvalue

theorem holds_of_evaluates (h : session.Holds config environment)
    {line : String} {statement : Statement} {count : Nat} {after : Machine}
    (hparse : session.parse line = .ok statement)
    (hfits : (session.program statement).length ≤ config.heapBase)
    (hrun : (session.ready count statement).machine.Evaluates
      (session.machine.scope session.symbols session.maxDepth).address statement
      (statement.body.value environment.valueOf) after) :
    Session.Holds (Session.resetRegisters { session.ready count statement with
      machine := after })
      config (environment.afterLine statement.line) := by
  have hstores := h.stores_of_evaluates hparse hfits hrun
  constructor
  · have hheapBase := congrArg Machine.heapBase hrun.rest
    exact hheapBase.trans
      ((heapBase_ready session count statement).trans h.heapBase)
  · have hstack := congrArg Machine.stack hrun.rest
    exact hstack.trans ((stack_ready session count statement).trans h.stack)
  · exact (maxDepth_ready session count statement).trans h.maxDepth
  · exact ⟨hstores.heap, hstores.entries, hstores.cells⟩
  · exact Environment.nodup_names_afterLine statement.line h.names
  · rfl
  · rfl

end Holds

/-!
## Outcomes
-/

inductive Outcome (session : Session) (config : Config)
    (environment : Environment) (line : String) : Prop where
  | unparsed {failure : ParseFailure} :
      session.parse line = .error failure ->
      session.evaluate line = (session, .error (.parse failure.error)) ->
      session.compile line = (session, .error (.parse failure.error)) ->
      Outcome session config environment line
  | tooLarge {statement : Statement} :
      session.parse line = .ok statement ->
      config.heapBase < (session.program statement).length ->
      session.evaluate line =
        (session, .error (.machine
          (.programTooLarge (session.program statement).length config.heapBase))) ->
      session.compile line =
        (session, .error (.machine
          (.programTooLarge (session.program statement).length config.heapBase))) ->
      Outcome session config environment line
  | runs {statement : Statement} {after : Session} :
      session.parse line = .ok statement ->
      (session.program statement).length ≤ config.heapBase ->
      session.evaluate line =
        (after, .ok (statement.body.value environment.valueOf)) ->
      session.compile line =
        (session,
          .ok ⟨session.program statement, statement.binding,
            1 + statement.body.registers⟩) ->
      after.Holds config (environment.afterLine statement.line) ->
      after.machine.HoldsCode 0 (session.program statement) ->
      Outcome session config environment line

namespace Holds

theorem evaluate_of_error (h : session.Holds config environment) {line : String}
    {failure : ParseFailure} (hparse : session.parse line = .error failure) :
    session.evaluate line = (session, .error (.parse failure.error)) := by
  simp only [evaluate, runLine, compileLine_of_error hparse,
    h.resetRegisters_claimRegisters]

theorem compile_of_error (h : session.Holds config environment) {line : String}
    {failure : ParseFailure} (hparse : session.parse line = .error failure) :
    session.compile line = (session, .error (.parse failure.error)) := by
  simp only [compile, compileLine_of_error hparse,
    h.resetRegisters_claimRegisters]

theorem check_program (h : session.Holds config environment)
    (statement : Statement) :
    session.machine.check (session.program statement) =
      if config.heapBase < (session.program statement).length then
        .error (.programTooLarge (session.program statement).length config.heapBase)
      else .ok () := by
  rw [← h.heapBase]
  exact session.machine.check_program _ 0 statement

theorem load_program (h : session.Holds config environment) (count : Nat)
    (statement : Statement) :
    (session.machine.claimRegisters count).load (session.program statement) =
      if config.heapBase < (session.program statement).length then
        .error (.programTooLarge (session.program statement).length config.heapBase)
      else .ok ((session.machine.claimRegisters count).loaded
        (session.program statement)) := by
  rw [← h.heapBase]
  exact (session.machine.claimRegisters count).load_program _ 0 statement

theorem compile_of_tooLarge (h : session.Holds config environment)
    {line : String} {statement : Statement}
    (hparse : session.parse line = .ok statement)
    (hlarge : config.heapBase < (session.program statement).length) :
    session.compile line =
      (session, .error (.machine (.programTooLarge
        (session.program statement).length config.heapBase))) := by
  have hcheck := h.check_program statement
  rw [if_pos hlarge] at hcheck
  simp only [compile, compileLine_of_ok h.idle hparse,
    h.resetRegisters_claimRegisters, hcheck]

theorem compile_of_fits (h : session.Holds config environment) {line : String}
    {statement : Statement} (hparse : session.parse line = .ok statement)
    (hfits : (session.program statement).length ≤ config.heapBase) :
    session.compile line =
      (session,
        .ok ⟨session.program statement, statement.binding,
          1 + statement.body.registers⟩) := by
  have hcheck := h.check_program statement
  rw [if_neg (Nat.not_lt.mpr hfits)] at hcheck
  simp only [compile, compileLine_of_ok h.idle hparse,
    h.resetRegisters_claimRegisters, hcheck]

theorem evaluate_of_tooLarge (h : session.Holds config environment)
    {line : String} {statement : Statement}
    (hparse : session.parse line = .ok statement)
    (hlarge : config.heapBase < (session.program statement).length) :
    session.evaluate line =
      (session, .error (.machine (.programTooLarge
        (session.program statement).length config.heapBase))) := by
  have hload := h.load_program (1 + statement.body.registers) statement
  rw [if_pos hlarge] at hload
  simp only [evaluate, runLine, compileLine_of_ok h.idle hparse,
    runCompiled, hload, h.resetRegisters_claimRegisters]

theorem define_loaded {line : String} {statement : Statement} (count : Nat)
    (hparse : session.parse line = .ok statement) :
    Session.define
        { session with
          machine := (session.machine.claimRegisters count).loaded
            (session.program statement) }
        statement.binding =
      .ok (session.ready count statement) := by
  have hstorage : ((session.machine.claimRegisters count).loaded
      (session.program statement)).storage session.symbols =
        session.machine.storage session.symbols := by
    funext name
    simp only [Machine.storage, Machine.heap_loaded]
    rfl
  rw [binding_of_parse hparse, ← hstorage]
  apply define_eq_commit
  intro name hname hfresh
  rw [Machine.heap_loaded, Machine.stack_loaded]
  exact room_of_parse hparse hname hfresh

theorem evaluate_of_fits (h : session.Holds config environment) {line : String}
    {statement : Statement} (hparse : session.parse line = .ok statement)
    (hfits : (session.program statement).length ≤ config.heapBase) :
    exists after,
      session.evaluate line =
          (after, .ok (statement.body.value environment.valueOf)) ∧
        after.Holds config (environment.afterLine statement.line) ∧
        after.machine.HoldsCode 0 (session.program statement) := by
  rcases h.evaluates_ready (1 + statement.body.registers) hparse hfits with
    ⟨machine, hrun⟩
  refine ⟨_, ?_, h.holds_of_evaluates hparse hfits hrun, hrun.code⟩
  have hload := h.load_program (1 + statement.body.registers) statement
  rw [if_neg (Nat.not_lt.mpr hfits)] at hload
  simp only [evaluate, runLine, compileLine_of_ok h.idle hparse,
    runCompiled, hload, define_loaded _ hparse, hrun.result]

theorem outcome (h : session.Holds config environment) (line : String) :
    Outcome session config environment line := by
  cases hparse : session.parse line with
  | error failure =>
      exact .unparsed hparse (h.evaluate_of_error hparse)
        (h.compile_of_error hparse)
  | ok statement =>
      by_cases hlarge : config.heapBase < (session.program statement).length
      · exact .tooLarge hparse hlarge (h.evaluate_of_tooLarge hparse hlarge)
          (h.compile_of_tooLarge hparse hlarge)
      · have hfits := Nat.not_lt.mp hlarge
        rcases h.evaluate_of_fits hparse hfits with
          ⟨after, hevaluate, hholds, hcode⟩
        exact .runs hparse hfits hevaluate
          (h.compile_of_fits hparse hfits) hholds hcode

end Holds

end Session

end LineCalc
