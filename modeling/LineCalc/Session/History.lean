import LineCalc.Session
import LineCalc.Tree.Grammar

/-!
# Histories of sessions

A session goes through a sequence of calls, each of which evaluates or compiles
a line.  This module says what becomes of a session, and which variables a
history defines.
-/

namespace LineCalc

/-- What is asked of a session. -/
inductive Call where
  | evaluate (line : String)
  | compile (line : String)

/-- A line of a script: one of its own, or one that has been inserted. -/
structure ScriptLine where
  text : String
  inserted : Bool

/-- Definitions one after the other: the names with the values that they get. -/
abbrev Definitions := List (String × Binary64)

namespace Definitions

def names (definitions : Definitions) : List String :=
  (definitions.map Prod.fst).eraseDups

/-- The value of the last definition of a name. -/
def value? (definitions : Definitions) (name : String) : Option Binary64 :=
  definitions.reverse.lookup name

end Definitions

namespace Session

def call (session : Session) : Call -> Session
  | .evaluate line => (session.evaluate line).1
  | .compile line => (session.compile line).1

def after (session : Session) (calls : List Call) : Session :=
  calls.foldl call session

/-- What a new session can become. -/
def Reachable (session : Session) (config : Config) : Prop :=
  exists calls, (Session.new config).after calls = session

/-- The value of a variable, if it is defined. -/
def valueOf? (session : Session) (name : String) : Option Binary64 :=
  (session.lookup? name).map fun address =>
    (session.machine.read? address).getD .nan

/-- The definitions that succeed in a sequence of calls. -/
def definitions (session : Session) : List Call -> Definitions
  | [] => []
  | .compile line :: rest => (session.compile line).1.definitions rest
  | .evaluate line :: rest =>
      match (session.evaluate line).2,
        Token.definedName? (TokenStream.scan line).lineTokens with
      | .ok value, some name =>
          (name, value) :: (session.evaluate line).1.definitions rest
      | _, _ => (session.evaluate line).1.definitions rest

def answered (session : Session) :
    List ScriptLine -> List (ScriptLine × Except EvalError Binary64)
  | [] => []
  | line :: rest =>
      (line, (session.evaluate line.text).2) ::
        (session.evaluate line.text).1.answered rest

end Session

end LineCalc
