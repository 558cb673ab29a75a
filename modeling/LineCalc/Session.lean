import LineCalc.Machine.Compile
import LineCalc.Machine.Run
import LineCalc.Token.Scan

/-!
# Sessions

A session evaluates one line after the other.  What outlives a line is the
machine's memory and heap and the names bound into it; a line either runs as a
whole program or is refused.
-/

namespace LineCalc

/-- Why a line was refused. -/
inductive EvalError
  /-- The line could not be parsed. -/
  | parse (cause : ParseError)
  /-- The machine refused the program of the line. -/
  | machine (cause : MachineError)
deriving DecidableEq, Repr

namespace EvalError

/-- What is told of every refusal alike. -/
def message : String :=
  "Unable to parse input"

/-- What is told when the refusal is to be explained. -/
def reason : EvalError -> String
  | parse cause => cause.message
  | machine cause => cause.message

/-- Where the token to blame stands, if there is one. -/
def span? : EvalError -> Option Span
  | parse cause => cause.span?
  | machine _ => none

end EvalError

/-- A variable as it is listed. -/
structure Variable where
  name : String
  address : Nat
  value : Binary64
deriving DecidableEq, Repr

structure Session where
  machine : Machine
  symbols : SymbolTable
  maxDepth : Nat

namespace Session

/-- A session in which nothing is defined. -/
def new (config : Config) : Session where
  machine := .new config
  symbols := .empty
  maxDepth := config.maxDepth

def lookup? (session : Session) (name : String) : Option Nat :=
  session.symbols.lookup? name

/-- The variables in order of definition, with the values they have. -/
def definedVariables (session : Session) : List Variable :=
  session.symbols.toList.map fun (name, address) =>
    ⟨name, address, (session.machine.read? address).getD .nan⟩

/-- Takes all registers back once a line is done. -/
def resetRegisters (session : Session) : Session :=
  { session with machine := session.machine.resetRegisters }

def compileLine (session : Session) (line : String) :
    Session × Except EvalError Compiled :=
  let (machine, result) :=
    session.machine.compile session.symbols session.maxDepth (.scan line)
  ({ session with machine }, result.mapError .parse)

def define (session : Session) : Option Binding -> Except MachineError Session
  | some (.new name _) =>
      (session.machine.allocate 1).map fun (machine, address) =>
        { session with machine, symbols := session.symbols.insert name address }
  | _ => .ok session

def runCompiled (session : Session) (compiled : Compiled) :
    Session × Except EvalError Binary64 :=
  match session.machine.load compiled.code with
  | .error cause => (session, .error (.machine cause))
  | .ok machine =>
      let loaded := { session with machine }
      match loaded.define compiled.binding with
      | .error cause => (loaded, .error (.machine cause))
      | .ok defined =>
          let (machine, value) := defined.machine.execute
          ({ defined with machine }, .ok value)

def runLine (session : Session) (line : String) :
    Session × Except EvalError Binary64 :=
  match session.compileLine line with
  | (claimed, .error e) => (claimed, .error e)
  | (claimed, .ok compiled) => claimed.runCompiled compiled

/-- Evaluates a line: the value, or why there is none, and the session after
it. -/
def evaluate (session : Session) (line : String) :
    Session × Except EvalError Binary64 :=
  let (after, result) := session.runLine line
  (after.resetRegisters, result)

/-- Compiles a line without running it.  The program is held to the same limits
as one that is loaded. -/
def compile (session : Session) (line : String) :
    Session × Except EvalError Compiled :=
  let (claimed, result) := session.compileLine line
  let after := claimed.resetRegisters
  match result with
  | .error e => (after, .error e)
  | .ok compiled =>
      match after.machine.check compiled.code with
      | .error cause => (after, .error (.machine cause))
      | .ok () => (after, .ok compiled)

end Session

end LineCalc
