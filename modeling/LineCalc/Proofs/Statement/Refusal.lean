import LineCalc.Proofs.Reading.Path
import LineCalc.Proofs.Statement.Parsing

/-!
# Lines that are refused

A line is refused at one of its lexemes, for a reason that depends on this
lexeme and on those in front of it.  So every line that starts with the same
lexemes is refused in the same way.
-/

namespace LineCalc

/-!
## The lexemes of a stream
-/

namespace TokenStream

variable {stream : TokenStream} {first : Lexeme} {rest : List Lexeme}

theorem peek_of_toList (h : stream.toList = first :: rest) :
    stream.peek = first := by
  have hhead := stream.head?_toList
  rw [h] at hhead
  exact (Option.some.inj hhead).symm

theorem toList_advance_of_toList (h : stream.toList = first :: rest)
    (hfirst : first.token ≠ .endOfInput) : stream.advance.toList = rest := by
  have hpending : stream.pending ≠ [] := by
    intro hnil
    rw [toList, hnil] at h
    cases h
    exact hfirst rfl
  rw [toList_advance hpending, h, List.tail_cons]

theorem exists_toList (stream : TokenStream) :
    exists rest, stream.toList = stream.peek :: rest := by
  rcases stream with ⟨pending, stop⟩
  cases pending with
  | nil => exact ⟨[], rfl⟩
  | cons first rest => exact ⟨rest ++ [⟨.endOfInput, ⟨stop, stop⟩⟩], rfl⟩

theorem toList_of_peek (h : stream.peek.token ≠ .endOfInput) :
    stream.toList = stream.peek :: stream.advance.toList := by
  rcases stream.exists_toList with ⟨rest, hrest⟩
  rw [hrest, toList_advance_of_toList hrest h]

end TokenStream

namespace Statement

variable {scope : Scope} {stream : TokenStream} {failure : ParseFailure}

/-- What stands in front of the expression of a line.  The variable of a
definition has its storage before the expression is read. -/
inductive Header (scope : Scope) : List Lexeme -> Prop where
  | evaluation : Header scope []
  | definition {first second third : Lexeme} {name : String}
      {binding : Binding} :
      first.token = .define ->
      second.token = .name name ->
      third.token = .equals ->
      scope.bind name = .ok binding ->
      Header scope [first, second, third]

inductive Refuses (scope : Scope) :
    List Lexeme -> Lexeme -> ParseFailure -> Prop where
  | variableName {first found : Lexeme} :
      first.token = .define ->
      (forall name, found.token ≠ .name name) ->
      Refuses scope [first] found ⟨.unexpected .variableName found, 1⟩
  | equalsSign {first second found : Lexeme} {name : String} :
      first.token = .define ->
      second.token = .name name ->
      found.token ≠ .equals ->
      Refuses scope [first, second] found ⟨.unexpected .equalsSign found, 1⟩
  | storage {first second found : Lexeme} {name : String}
      {cause : MachineError} :
      first.token = .define ->
      second.token = .name name ->
      found.token = .equals ->
      scope.bind name = .error cause ->
      Refuses scope [first, second] found ⟨.storage cause, 1⟩
  | body {header body : List Lexeme} {reading : Reading} {found : Lexeme}
      {failure : ParseFailure} :
      Header scope header ->
      (header = [] -> body = [] -> found.token ≠ .define) ->
      Reading.Path scope .start body reading ->
      reading.Stops scope found failure ->
      Refuses scope (header ++ body) found failure

theorem parseBody_eq_error_iff {binding : Option Binding} :
    parseBody scope binding stream = .error failure <->
      exists read found unread last, stream.toList = read ++ found :: unread ∧
        Reading.Path scope .start read last ∧
        last.Stops scope found failure := by
  rw [TokenStream.toList, ← Reading.run_eq_error_iff rfl]
  unfold parseBody
  cases Reading.start.run scope stream.closing stream.pending with
  | ok body => simp [Except.map]
  | error other => simp [Except.map]

theorem refuses_of_parseDefinition {first : Lexeme}
    (hfirst : first.token = .define)
    (h : parseDefinition scope stream = .error failure) :
    exists read found unread, first :: stream.toList = read ++ found :: unread ∧
      Refuses scope read found failure := by
  rcases stream.exists_toList with ⟨rest, hrest⟩
  unfold parseDefinition at h
  split at h
  · rename_i name hname
    have hsecond : stream.toList = stream.peek :: stream.advance.toList :=
      TokenStream.toList_of_peek (by simp [hname])
    rcases stream.advance.exists_toList with ⟨tail, htail⟩
    simp only at h
    split at h
    · rename_i hequals
      have hthird : stream.advance.toList =
          stream.advance.peek :: stream.advance.advance.toList :=
        TokenStream.toList_of_peek (by simp [hequals])
      cases hbind : scope.bind name with
      | error cause =>
          rw [hbind] at h
          cases h
          exact ⟨[first, stream.peek], stream.advance.peek, tail,
            by rw [hsecond, htail]; rfl, .storage hfirst hname hequals hbind⟩
      | ok binding =>
          rw [hbind] at h
          rcases parseBody_eq_error_iff.mp h with
            ⟨read, found, unread, last, hbody, hpath, hstops⟩
          exact ⟨[first, stream.peek, stream.advance.peek] ++ read,
            found, unread, by rw [hsecond, hthird, hbody]; rfl,
            .body (.definition hfirst hname hequals hbind) (by simp) hpath hstops⟩
    · rename_i hequals
      cases h
      exact ⟨[first, stream.peek], stream.advance.peek, tail,
        by rw [hsecond, htail]; rfl, .equalsSign hfirst hname hequals⟩
  · rename_i hname
    cases h
    exact ⟨[first], stream.peek, rest,
      by rw [hrest]; rfl, .variableName hfirst hname⟩

theorem refuses_of_parse (h : parse scope stream = .error failure) :
    exists read found unread, stream.toList = read ++ found :: unread ∧
      Refuses scope read found failure := by
  unfold parse at h
  split at h
  · rename_i hdefine
    rw [TokenStream.toList_of_peek (by simp [hdefine])]
    exact refuses_of_parseDefinition hdefine h
  · rename_i hdefine
    rcases parseBody_eq_error_iff.mp h with
      ⟨read, found, unread, last, hbody, hpath, hstops⟩
    refine ⟨read, found, unread, hbody, .body .evaluation ?_ hpath hstops⟩
    intro _ hread
    subst read
    rwa [TokenStream.peek_of_toList hbody] at hdefine

theorem parse_of_define_name {first second third : Lexeme} {rest : List Lexeme}
    {name : String} (hstream : stream.toList = first :: second :: third :: rest)
    (hfirst : first.token = .define) (hsecond : second.token = .name name) :
    parse scope stream =
      if third.token = .equals then
        match scope.bind name with
        | .ok binding =>
            parseBody scope (some binding) stream.advance.advance.advance
        | .error cause => .error ⟨.storage cause, 1⟩
      else
        .error ⟨.unexpected .equalsSign third, 1⟩ := by
  have hrest := TokenStream.toList_advance_of_toList hstream (by simp [hfirst])
  have hlast := TokenStream.toList_advance_of_toList hrest (by simp [hsecond])
  have hparse : parse scope stream = parseDefinition scope stream.advance := by
    rw [parse, TokenStream.peek_of_toList hstream, if_pos hfirst]
  rw [hparse]
  unfold parseDefinition
  cases hbind : scope.bind name <;>
    simp only [TokenStream.peek_of_toList hrest,
      TokenStream.peek_of_toList hlast, hsecond, hbind]

theorem parse_of_header {header body : List Lexeme} (h : Header scope header)
    (hstream : stream.toList = header ++ body)
    (hbody : header = [] -> stream.peek.token ≠ .define) :
    exists binding after, after.toList = body ∧
      parse scope stream = parseBody scope binding after := by
  cases h with
  | evaluation => exact ⟨none, stream, hstream, if_neg (hbody rfl)⟩
  | @definition first second third name binding hfirst hsecond hthird hbind =>
      have hrest :=
        TokenStream.toList_advance_of_toList hstream (by simp [hfirst])
      have hlast :=
        TokenStream.toList_advance_of_toList hrest (by simp [hsecond])
      have hafter :=
        TokenStream.toList_advance_of_toList hlast (by simp [hthird])
      refine ⟨some binding, _, hafter, ?_⟩
      rw [parse_of_define_name hstream hfirst hsecond, if_pos hthird, hbind]

theorem parse_of_refuses {read unread : List Lexeme} {found : Lexeme}
    (hstream : stream.toList = read ++ found :: unread)
    (h : Refuses scope read found failure) :
    parse scope stream = .error failure := by
  cases h with
  | variableName hfirst hname =>
      have hrest :=
        TokenStream.toList_advance_of_toList hstream (by simp [hfirst])
      simp only [parse, parseDefinition, TokenStream.peek_of_toList hstream,
        TokenStream.peek_of_toList hrest, hfirst, ↓reduceIte]
  | equalsSign hfirst hsecond hequals =>
      rw [parse_of_define_name hstream hfirst hsecond, if_neg hequals]
  | storage hfirst hsecond hequals hbind =>
      rw [parse_of_define_name hstream hfirst hsecond, if_pos hequals, hbind]
  | @body header body reading _ _ hheader hfound hpath hstops =>
      rw [List.append_assoc] at hstream
      have hpeek : header = [] -> stream.peek.token ≠ .define := by
        intro hnil
        subst header
        cases body with
        | nil =>
            rw [TokenStream.peek_of_toList hstream]
            exact hfound rfl rfl
        | cons first body =>
            rw [TokenStream.peek_of_toList hstream]
            intro hdefine
            exact hpath.define_notMem (by simp [hdefine])
      rcases parse_of_header hheader hstream hpeek with
        ⟨binding, after, hafter, hparse⟩
      rw [hparse]
      exact parseBody_eq_error_iff.mpr ⟨body, found, unread, reading, hafter,
        hpath, hstops⟩

/-- A line is refused exactly if it is at one of its lexemes. -/
theorem parse_eq_error_iff :
    parse scope stream = .error failure <->
      exists read found unread, stream.toList = read ++ found :: unread ∧
        Refuses scope read found failure := by
  constructor
  · exact refuses_of_parse
  · intro h
    rcases h with ⟨read, found, unread, hstream, hrefuses⟩
    exact parse_of_refuses hstream hrefuses

end Statement

end LineCalc
