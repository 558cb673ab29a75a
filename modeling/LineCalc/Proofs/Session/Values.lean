import LineCalc.Proofs.Session.History
import LineCalc.Proofs.Token.Scan

/-!
# The value of a line

A line that gives a value gives that of its parse tree, with the values that the
variables had before the line.  Only the variable that the line defines changes.
-/

namespace LineCalc

namespace Environment

theorem lookup_afterLine (environment : Environment) (line : Line)
    (name : String) :
    (environment.afterLine line).lookup name =
      if line.defined =
        some name then some (line.body.value environment.valueOf)
      else environment.lookup name := by
  unfold afterLine
  cases line.defined with
  | none => rfl
  | some defined =>
      simp only [lookup_define, Option.some.injEq, eq_comm]

end Environment

namespace Session

/-- What a tree says about a line that gives a value: it is the only parse tree
of the line, every name in its expression has a value, the value of the
expression is the one given, and the variables afterwards have the values that
the tree says. -/
structure GivesValue (session : Session) (line : String) (value : Binary64)
    (tree : Line) : Prop where
  tokens : (TokenStream.scan line).toList.map Lexeme.token =
    tree.tokens ++ [.endOfInput]
  sentence : Derives .line tree.tokens
  unique : forall other : Line, other.tokens = tree.tokens -> other = tree
  bound : forall name, .name name ∈ tree.body.tokens ->
    (session.valueOf? name).isSome
  result : value = tree.body.value fun name => (session.valueOf? name).getD .nan
  after : forall name, (session.evaluate line).1.valueOf? name =
    if tree.defined = some name then some value else session.valueOf? name

variable {session : Session} {config : Config}

theorem Holds.bound_of_parse {environment : Environment} {line name : String}
    {statement : Statement} (h : session.Holds config environment)
    (hparse : session.parse line = .ok statement)
    (hname : .name name ∈ statement.body.tokens) :
    (session.valueOf? name).isSome := by
  rcases Statement.parse_eq_ok_iff.mp hparse with ⟨_, hadmits, _⟩
  have hmem := (h.stores.lookup?_isSome name).mp (hadmits.bound name hname)
  rw [h.valueOf?]
  exact (environment.lookup_isSome_iff name).mpr hmem

theorem givesValue_of_evaluate_eq_ok {line : String} {value : Binary64}
    (hreach : session.Reachable config)
    (hvalue : (session.evaluate line).2 = .ok value) :
    exists tree, session.GivesValue line value tree := by
  rcases hreach.holds with ⟨environment, h⟩
  have hvalueOf : (fun name => (session.valueOf? name).getD .nan) =
      environment.valueOf := by
    funext name
    rw [h.valueOf?, Environment.valueOf]
  cases h.outcome line with
  | unparsed _ hevaluate _ =>
      rw [hevaluate] at hvalue
      cases hvalue
  | tooLarge _ _ hevaluate _ =>
      rw [hevaluate] at hvalue
      cases hvalue
  | @runs statement after hparse _ hevaluate _ hafter _ =>
      have htokens := (Statement.parse_eq_ok_iff.mp hparse).left
      have hresult : statement.body.value environment.valueOf = value := by
        rw [hevaluate] at hvalue
        exact Except.ok.inj hvalue
      refine ⟨statement.line, ?_, ?_, ?_, ?_, ?_, ?_⟩
      · rw [TokenStream.map_token_scan, htokens]
      · exact derives_tokens_line statement.line
      · intro other hother
        exact Line.eq_of_tokens_eq hother
      · intro name hname
        exact h.bound_of_parse hparse hname
      · rw [hvalueOf]
        exact hresult.symm
      · intro name
        rw [hevaluate, hafter.valueOf?, Environment.lookup_afterLine,
          h.valueOf?, ← hresult]
        rfl

/-- A definition, after another one, a line that is only compiled, and one that
is refused. -/
theorem givesValue_of_quotient :
    exists tree, Session.GivesValue
      ((Session.new .standard).after [.evaluate "def x = 5", .compile "x * 2",
        .evaluate "x +"])
      "def y = (x - 1) * x / 2 - 3" (.ofBits 0x401c000000000000) tree :=
  givesValue_of_evaluate_eq_ok ⟨_, rfl⟩ (by decide +kernel)

end Session

end LineCalc
