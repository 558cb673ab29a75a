import LineCalc.Proofs.Session.Line

/-!
# What a history does to a session

A session holds, at the end of any history, the environment in which the
definitions of that history that succeeded have been made one after the other.
-/

namespace LineCalc

namespace Environment

def defineAll (environment : Environment) (definitions : Definitions) :
    Environment :=
  definitions.foldl (fun environment entry =>
    environment.define entry.1 entry.2) environment

theorem defineAll_append (environment : Environment)
    (left right : Definitions) :
    environment.defineAll (left ++ right) =
      (environment.defineAll left).defineAll right :=
  List.foldl_append

end Environment

namespace Session

variable {session : Session} {config : Config} {environment : Environment}

theorem definitions_cons (session : Session) (first : Call) (rest : List Call) :
    session.definitions (first :: rest) =
      session.definitions [first] ++ (session.call first).definitions rest := by
  cases first with
  | compile line => rfl
  | evaluate line =>
      simp only [definitions, call]
      split <;> rfl

theorem definedName?_of_parse {line : String} {statement : Statement}
    (hparse : session.parse line = .ok statement) :
    Token.definedName? (TokenStream.scan line).lineTokens =
      statement.line.defined :=
  Machine.definedName?_of_parse hparse

namespace Holds

theorem compile_fst (h : session.Holds config environment) (line : String) :
    (session.compile line).1 = session := by
  cases h.outcome line with
  | unparsed _ _ hcompile => rw [hcompile]
  | tooLarge _ _ _ hcompile => rw [hcompile]
  | runs _ _ _ hcompile _ _ => rw [hcompile]

theorem evaluate_fst (h : session.Holds config environment) (line : String) :
    (session.evaluate line).1.Holds config
      (environment.defineAll (session.definitions [.evaluate line])) := by
  cases h.outcome line with
  | unparsed _ hevaluate _ =>
      simpa [definitions, hevaluate, Environment.defineAll] using h
  | tooLarge _ _ hevaluate _ =>
      simpa [definitions, hevaluate, Environment.defineAll] using h
  | @runs statement _ hparse _ hevaluate _ hafter _ =>
      have hname := definedName?_of_parse hparse
      unfold Environment.afterLine at hafter
      rw [definitions, hevaluate]
      cases hdefined : statement.line.defined with
      | none =>
          rw [hdefined] at hafter hname
          simpa [hname, definitions, Environment.defineAll] using hafter
      | some name =>
          rw [hdefined] at hafter hname
          simpa [hname, definitions, Environment.defineAll,
            Statement.line] using hafter

theorem call (h : session.Holds config environment) (call : Call) :
    (session.call call).Holds config
      (environment.defineAll (session.definitions [call])) := by
  cases call with
  | evaluate line => exact h.evaluate_fst line
  | compile line =>
      have hsame := h.compile_fst line
      rw [Session.call, hsame]
      simpa [definitions, Environment.defineAll] using h

theorem after (h : session.Holds config environment) (calls : List Call) :
    (session.after calls).Holds config
      (environment.defineAll (session.definitions calls)) := by
  induction calls generalizing session environment with
  | nil => exact h
  | cons first rest ih =>
      rw [definitions_cons, Environment.defineAll_append]
      exact ih (h.call first)

end Holds

/-- A reachable session holds an environment. -/
theorem Reachable.holds (h : session.Reachable config) :
    exists environment, session.Holds config environment := by
  rcases h with ⟨calls, rfl⟩
  exact ⟨_, (Holds.new config).after calls⟩

end Session

end LineCalc
