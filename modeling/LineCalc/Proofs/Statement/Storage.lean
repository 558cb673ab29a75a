import LineCalc.Proofs.Statement.Refusal

/-!
# Lines that are refused for storage

Storage is looked for as soon as `def`, a name and `=` have been read, and at no
other time.  So whether a line is refused for it does not depend on the
expression that it holds.
-/

namespace LineCalc

theorem Token.definedName?_eq_some_iff {tokens : List Token} {name : String} :
    Token.definedName? tokens = some name <->
      exists rest, tokens = .define :: .name name :: .equals :: rest := by
  constructor
  · intro h
    unfold Token.definedName? at h
    split at h
    · rename_i defined rest
      rw [← Option.some.inj h]
      exact ⟨rest, rfl⟩
    · cases h
  · intro h
    rcases h with ⟨rest, hrest⟩
    rw [hrest]
    rfl

theorem Reading.Refusal.ne_storage {scope : Scope} {reading : Reading}
    {found : Lexeme} {error : ParseError}
    (h : Reading.Refusal scope reading found error) (cause : MachineError) :
    error ≠ .storage cause := by
  intro hcause
  subst error
  cases h with
  | illegal _ hillegal => cases hillegal

namespace Statement

theorem definedName?_of_toList {stream : TokenStream}
    {first second third : Lexeme} {rest : List Lexeme} {name : String}
    (h : stream.toList = first :: second :: third :: rest)
    (hfirst : first.token = .define) (hsecond : second.token = .name name)
    (hthird : third.token = .equals) :
    Token.definedName? stream.lineTokens = some name := by
  simp [TokenStream.lineTokens, h, hfirst, hsecond, hthird, Token.definedName?]

/-- A line is refused for storage exactly if it starts as the definition of a
name that has none. -/
theorem parse_storage_iff {scope : Scope} {stream : TokenStream}
    {cause : MachineError} :
    (exists registers,
      parse scope stream = .error ⟨.storage cause, registers⟩) <->
      exists name, Token.definedName? stream.lineTokens = some name ∧
        scope.bind name = .error cause := by
  constructor
  · intro h
    rcases h with ⟨registers, hparse⟩
    rcases parse_eq_error_iff.mp hparse with
      ⟨read, found, unread, hstream, hrefuses⟩
    cases hrefuses with
    | storage hfirst hsecond hequals hbind =>
        exact ⟨_, definedName?_of_toList hstream hfirst hsecond hequals, hbind⟩
    | body _ _ _ hstops =>
        exact absurd rfl ((Reading.refusal_of_stops hstops).ne_storage cause)
  · intro h
    rcases h with ⟨name, hdefined, hbind⟩
    rcases Token.definedName?_eq_some_iff.mp hdefined with ⟨rest, hline⟩
    rcases TokenStream.peek_of_lineTokens_cons hline with ⟨hdefine, hname⟩
    rcases TokenStream.peek_of_lineTokens_cons hname with ⟨hname, hequals⟩
    rcases TokenStream.peek_of_lineTokens_cons hequals with ⟨hequals, _⟩
    refine ⟨1, ?_⟩
    simp only [parse, hdefine, parseDefinition, hname, hequals,
      hbind, ↓reduceIte]

end Statement

end LineCalc
