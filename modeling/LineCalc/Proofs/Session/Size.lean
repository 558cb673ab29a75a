import LineCalc.Proofs.Session.History
import LineCalc.Proofs.Tree.Size

/-!
# Which lines are too long

The length of a program can be told from the tokens of its line.  So a line that
is parsed is refused by a session exactly if its operators and parentheses take
too many instructions for the room below the heap.
-/

namespace LineCalc

namespace Token

def programRegisters (tokens : List Token) : Nat :=
  3 + 3 * tokens.countP isAdditive + 2 * tokens.countP isMultiplicative +
    2 * tokens.count .openParen

def programLength (tokens : List Token) : Nat :=
  4 + 3 * tokens.countP isAdditive + 2 * tokens.countP isMultiplicative +
    2 * tokens.count .openParen +
      (if (definedName? tokens).isSome then 1 else 0)

theorem programRegisters_eq_demand (tokens : List Token) :
    programRegisters tokens = demand tokens + 3 := by
  rw [programRegisters, demand]
  omega

theorem programLength_eq_demand (tokens : List Token) :
    programLength tokens =
      demand tokens + 4 + (if (definedName? tokens).isSome then 1 else 0) := by
  rw [programLength, demand]
  omega

end Token

namespace Machine

variable {machine : Machine} {symbols : SymbolTable} {maxDepth : Nat}
  {stream : TokenStream} {statement : Statement}

theorem registers_of_parse
    (hparse : Statement.parse (machine.scope symbols maxDepth) stream =
      .ok statement) :
    1 + statement.body.registers =
      Token.programRegisters stream.lineTokens := by
  have htokens := (Statement.parse_eq_ok_iff.mp hparse).left
  have hdemand := statement.line.demand_tokens
  rw [htokens] at hdemand
  rw [Token.programRegisters_eq_demand, hdemand,
    statement.body.registers_eq_demand, Nat.add_comm]
  rfl

theorem length_program_of_parse (address : String -> Nat) (first : Nat)
    (hparse : Statement.parse (machine.scope symbols maxDepth) stream =
      .ok statement) :
    (statement.program address first).length =
      Token.programLength stream.lineTokens := by
  have htokens := (Statement.parse_eq_ok_iff.mp hparse).left
  have hdemand := statement.line.demand_tokens
  rw [htokens] at hdemand
  rw [Token.programLength_eq_demand, hdemand, definedName?_of_parse hparse,
    Statement.length_program, statement.body.registers_eq_demand]
  rcases statement with ⟨_ | binding, body⟩ <;> rfl

end Machine

namespace Session

theorem Holds.error_iff_of_parse {session : Session} {config : Config}
    {environment : Environment} (h : session.Holds config environment)
    {line : String} {statement : Statement}
    (hparse : session.parse line = .ok statement) (cause : EvalError) :
    let length := Token.programLength (TokenStream.scan line).lineTokens
    ((session.evaluate line).2 = .error cause <->
        config.heapBase < length ∧
        cause = .machine (.programTooLarge length config.heapBase)) ∧
      ((session.compile line).2 = .error cause <->
        config.heapBase < length ∧
        cause = .machine (.programTooLarge length config.heapBase)) := by
  have hlength : (session.program statement).length =
      Token.programLength (TokenStream.scan line).lineTokens :=
    Machine.length_program_of_parse _ 0 hparse
  rw [← hlength]
  by_cases hlarge : config.heapBase < (session.program statement).length
  · simp [h.evaluate_of_tooLarge hparse hlarge,
      h.compile_of_tooLarge hparse hlarge, hlarge, eq_comm]
  · have hfits := Nat.not_lt.mp hlarge
    rcases h.evaluate_of_fits hparse hfits with ⟨after, hevaluate, _, _⟩
    simp [hevaluate, h.compile_of_fits hparse hfits, hlarge]

/-- The size of a program is told by the tokens of its line, on any machine.  In
a session it decides whether a line that is parsed is run. -/
theorem size_told_by_tokens :
    (forall (machine : Machine) symbols maxDepth stream compiled,
      (machine.compile symbols maxDepth stream).2 = .ok compiled ->
        compiled.code.length = Token.programLength stream.lineTokens ∧
        (machine.compile symbols maxDepth stream).1.registersInUse =
          machine.registersInUse + Token.programRegisters stream.lineTokens) ∧
    forall (session : Session) config line compiled, session.Reachable config ->
      (session.machine.compile session.symbols session.maxDepth (.scan line)).2 =
        .ok compiled ->
      let length := Token.programLength (TokenStream.scan line).lineTokens
      forall cause,
        ((session.evaluate line).2 = .error cause <->
          config.heapBase < length ∧
            cause = .machine (.programTooLarge length config.heapBase)) ∧
        ((session.compile line).2 = .error cause <->
          config.heapBase < length ∧
            cause = .machine (.programTooLarge length config.heapBase)) := by
  constructor
  · intro machine symbols maxDepth stream compiled hcompile
    rcases Machine.compile_eq_ok_iff.mp hcompile with ⟨statement, hparse, rfl⟩
    rw [Machine.registersInUse_compile hparse,
      Machine.registers_of_parse hparse]
    exact ⟨Machine.length_program_of_parse _ _ hparse, rfl⟩
  · intro session config line compiled hreach hcompile length cause
    rcases hreach.holds with ⟨environment, h⟩
    rcases Machine.compile_eq_ok_iff.mp hcompile with ⟨statement, hparse, _⟩
    exact h.error_iff_of_parse hparse cause

/-- After a definition that fits exactly, one that is two instructions too
long. -/
theorem size_told_by_tokens_at_limit :
    let session := (Session.new ⟨10, 12, 1⟩).after [.evaluate "def y = (1 + 2)"]
    let line := "def y = (1 + y) * 3"
    exists compiled,
      (session.machine.compile session.symbols session.maxDepth (.scan line)).2 =
        .ok compiled ∧
      compiled.code.length = 12 ∧
      (session.evaluate line).2 =
        .error (.machine (.programTooLarge 12 10)) := by
  intro session line
  have hparsed : (session.machine.compile session.symbols session.maxDepth
      (.scan line)).2.isOk = true := by decide +kernel
  cases hcompile : (session.machine.compile session.symbols session.maxDepth
    (.scan line)).2 with
  | error cause =>
      rw [hcompile] at hparsed
      cases hparsed
  | ok compiled =>
      have hlength : Token.programLength (TokenStream.scan line).lineTokens =
          12 := by
        decide +kernel
      have hsize := size_told_by_tokens.left _ _ _ _ compiled hcompile
      have hrefused :=
        size_told_by_tokens.right session ⟨10, 12, 1⟩ line compiled
          ⟨[.evaluate "def y = (1 + 2)"], rfl⟩ hcompile
      simp only [hlength] at hsize hrefused
      exact ⟨compiled, rfl, hsize.left, (hrefused _).left.mpr ⟨by decide, rfl⟩⟩

end Session

end LineCalc
