import LineCalc.Proofs.Reading.Uniqueness

/-!
# Lines that are parsed

A line is parsed exactly if it is a sentence whose expression is admitted and,
where it defines a variable, storage for that variable is found.  The statement
is the parse tree together with that storage.
-/

namespace LineCalc

/-!
## The tokens of a stream
-/

namespace TokenStream

theorem lineTokens_of_peek {stream : TokenStream}
    (h : stream.peek.token ≠ .endOfInput) :
    stream.lineTokens = stream.peek.token :: stream.advance.lineTokens := by
  rcases stream with ⟨pending, stop⟩
  cases pending with
  | nil => exact absurd rfl h
  | cons first rest =>
      have hfirst : first.token ≠ .endOfInput := h
      simp [lineTokens, toList, closing, advance, peek, hfirst]

theorem lineTokens_of_atEnd {stream : TokenStream}
    (h : stream.peek.token = .endOfInput) :
    stream.lineTokens = [] := by
  rcases stream with ⟨pending, stop⟩
  cases pending with
  | nil => rfl
  | cons first rest =>
      have hfirst : first.token = .endOfInput := h
      simp [lineTokens, toList, hfirst]

theorem peek_of_lineTokens_cons {stream : TokenStream} {token : Token}
    {tokens : List Token} (h : stream.lineTokens = token :: tokens) :
    stream.peek.token = token ∧ stream.advance.lineTokens = tokens := by
  by_cases hended : stream.peek.token = .endOfInput
  · rw [lineTokens_of_atEnd hended] at h
    cases h
  · rw [lineTokens_of_peek hended] at h
    injection h with hfirst hrest
    exact ⟨hfirst, hrest⟩

theorem lineTokens_eq_pending (stream : TokenStream) :
    stream.lineTokens =
      (stream.pending.map Lexeme.token).takeWhile (· ≠ .endOfInput) := by
  rcases stream with ⟨pending, stop⟩
  induction pending with
  | nil => rfl
  | cons first rest ih =>
      by_cases hended : first.token = .endOfInput
      · simp [lineTokens, toList, hended]
      · have hpeek : (TokenStream.mk (first :: rest) stop).peek.token ≠
            .endOfInput := hended
        rw [lineTokens_of_peek hpeek]
        simpa [hended, peek, advance] using ih

end TokenStream

/-!
## Storage
-/

theorem Scope.name_of_bind {scope : Scope} {name : String} {binding : Binding}
    (h : scope.bind name = .ok binding) : binding.name = name := by
  unfold Scope.bind at h
  cases hlookup : scope.symbols.lookup? name with
  | some address =>
      rw [hlookup] at h
      injection h with h
      rw [← h]
      rfl
  | none =>
      rw [hlookup] at h
      cases hnext : scope.nextAddress with
      | error cause =>
          simp [hnext, Except.map] at h
      | ok address =>
          simp only [hnext, Except.map, Except.ok.injEq] at h
          rw [← h]
          rfl

/-!
## Statements
-/

namespace Statement

theorem tokens_line (statement : Statement) :
    statement.line.tokens = statement.tokens := by
  rcases statement with ⟨binding, body⟩
  cases binding <;> rfl

theorem parseBody_eq_ok_iff {scope : Scope} {binding : Option Binding}
    {stream : TokenStream} {statement : Statement} :
    parseBody scope binding stream = .ok statement <->
      statement.binding = binding ∧ statement.body.tokens = stream.lineTokens ∧
        scope.Admits 0 statement.body.tokens := by
  rw [TokenStream.lineTokens_eq_pending,
    ← @Reading.run_start_eq_ok_iff scope stream.closing]
  unfold parseBody
  constructor
  · intro h
    cases hrun : Reading.start.run scope stream.closing stream.pending with
    | error failure =>
        simp [hrun, Except.map] at h
    | ok body =>
        simp only [hrun, Except.map, Except.ok.injEq] at h
        subst statement
        exact ⟨rfl, rfl⟩
  · intro h
    rcases h with ⟨hbinding, hrun⟩
    rw [hrun, ← hbinding]
    rfl

theorem parseDefinition_eq_ok_iff {scope : Scope} {stream : TokenStream}
    {statement : Statement} :
    parseDefinition scope stream = .ok statement <->
      exists binding, statement.binding = some binding ∧
        .name binding.name :: .equals :: statement.body.tokens =
          stream.lineTokens ∧
        scope.Admits 0 statement.body.tokens ∧
        scope.bind binding.name = .ok binding := by
  constructor
  · intro h
    unfold parseDefinition at h
    split at h
    · rename_i name hname
      simp only at h
      split at h
      · rename_i hequals
        cases hbind : scope.bind name with
        | error cause =>
            rw [hbind] at h
            cases h
        | ok binding =>
            rw [hbind] at h
            rcases parseBody_eq_ok_iff.mp h with ⟨hbinding, htokens, hadmits⟩
            have hbound := Scope.name_of_bind hbind
            refine ⟨binding, hbinding, ?_, hadmits, hbound ▸ hbind⟩
            rw [TokenStream.lineTokens_of_peek (by simp [hname]),
              TokenStream.lineTokens_of_peek (by simp [hequals]), hname,
              hequals, hbound, htokens]
      · cases h
    · cases h
  · intro h
    rcases h with ⟨binding, hbinding, htokens, hadmits, hbind⟩
    rcases TokenStream.peek_of_lineTokens_cons htokens.symm with ⟨hname, hrest⟩
    rcases TokenStream.peek_of_lineTokens_cons hrest with ⟨hequals, hbody⟩
    simp only [parseDefinition, hname, hequals, hbind, ↓reduceIte]
    exact parseBody_eq_ok_iff.mpr ⟨hbinding, hbody.symm, hadmits⟩

/-- A line is parsed to a statement exactly if it has the statement's tokens,
these are admitted, and the variable that it defines has the statement's
storage. -/
theorem parse_eq_ok_iff {scope : Scope} {stream : TokenStream}
    {statement : Statement} :
    parse scope stream = .ok statement <->
      statement.line.tokens = stream.lineTokens ∧
        scope.Admits 0 statement.body.tokens ∧
        forall binding, statement.binding = some binding ->
          scope.bind binding.name = .ok binding := by
  unfold parse
  split
  · rename_i hdefine
    have hline : stream.lineTokens = .define :: stream.advance.lineTokens := by
      rw [TokenStream.lineTokens_of_peek (by simp [hdefine]), hdefine]
    rw [parseDefinition_eq_ok_iff, hline, tokens_line]
    constructor
    · intro h
      rcases h with ⟨binding, hbinding, htokens, hadmits, hbind⟩
      refine ⟨?_, hadmits, ?_⟩
      · rw [← htokens]
        simp [tokens, hbinding]
      · intro other hother
        rw [hbinding, Option.some.injEq] at hother
        exact hother ▸ hbind
    · intro h
      rcases h with ⟨htokens, hadmits, hbind⟩
      cases hbinding : statement.binding with
      | none =>
          simp only [tokens, hbinding] at htokens
          exact absurd (by simp [htokens]) statement.body.define_notMem_tokens
      | some binding =>
          simp only [tokens, hbinding, List.cons.injEq, true_and] at htokens
          exact ⟨binding, rfl, htokens, hadmits, hbind binding hbinding⟩
  · rename_i hdefine
    rw [parseBody_eq_ok_iff, tokens_line]
    constructor
    · intro h
      rcases h with ⟨hbinding, htokens, hadmits⟩
      refine ⟨?_, hadmits, ?_⟩
      · rw [← htokens]
        simp [tokens, hbinding]
      · intro binding hsome
        rw [hbinding] at hsome
        cases hsome
    · intro h
      rcases h with ⟨htokens, hadmits, _⟩
      cases hbinding : statement.binding with
      | none =>
          simp only [tokens, hbinding] at htokens
          exact ⟨rfl, htokens, hadmits⟩
      | some binding =>
          simp only [tokens, hbinding] at htokens
          exact absurd
            (TokenStream.peek_of_lineTokens_cons htokens.symm).left hdefine

end Statement

end LineCalc
