import LineCalc.Session
import LineCalc.Tree.Relocation

/-!
# Transcripts of sessions

A transcript tells of every line of a script what it compiles to, what it
answers and which variables there are after it.
-/

namespace LineCalc

/-- What a session has to say of a line. -/
structure LineRecord where
  compiled : Except EvalError Compiled
  answer : Except EvalError Binary64
  /-- The variables after the line. -/
  listing : List Variable

def Variable.relocate (distance : Nat) (var : Variable) : Variable :=
  { var with address := var.address + distance }

/-- The record of the same line in another memory layout: the answer stays. -/
def LineRecord.relocate (distance : Nat) (record : LineRecord) :
    LineRecord where
  compiled := record.compiled.map (Compiled.relocate distance)
  answer := record.answer
  listing := record.listing.map (Variable.relocate distance)

/-- The records of lines that are evaluated one after the other. -/
def Session.transcript (session : Session) : List String -> List LineRecord
  | [] => []
  | line :: rest =>
      let after := (session.evaluate line).1
      ⟨(session.compile line).2, (session.evaluate line).2,
        after.definedVariables⟩ ::
        after.transcript rest

/-- One configuration is at least as generous as another: programs may be
longer, the heap has more room, and parentheses may nest deeper. -/
structure Config.RaisedTo (config other : Config) : Prop where
  heapBase : config.heapBase ≤ other.heapBase
  room : config.stackTop - config.heapBase ≤ other.stackTop - other.heapBase
  maxDepth : config.maxDepth ≤ other.maxDepth

end LineCalc
