import LineCalc.CommandLine.Arguments
import LineCalc.Diagnostic
import LineCalc.Instruction.Json
import LineCalc.Instruction.Text
import LineCalc.Text.Blank

/-!
# Running lines

Every line is trimmed.  A blank one is passed over, `:vars` lists the variables,
and any other is evaluated in the session of the lines before it, or only
compiled where programs are to be printed.
-/

namespace LineCalc

namespace CommandLine

/-- What running a line leaves behind, apart from the session. -/
structure Output where
  stdout : String
  stderr : String
  failed : Bool
  /-- Whether a refusal could not be explained, which ends the program at
  once. -/
  stopped : Bool
deriving DecidableEq, Repr

namespace Output

def empty : Output := ⟨"", "", false, false⟩

/-- One output after the other, unless the program has ended. -/
def append (first second : Output) : Output :=
  if first.stopped then
    first
  else
    ⟨first.stdout ++ second.stdout, first.stderr ++ second.stderr,
      first.failed || second.failed, second.stopped⟩

instance : Append Output := ⟨append⟩

def print (text : String) : Output :=
  ⟨text ++ "\n", "", false, false⟩

end Output

/-- The record of an evaluation: what was entered, and what came out. -/
def record (input output : String) : String :=
  ">>> " ++ input ++ "\n" ++ output

def variableLine (var : Variable) : String :=
  var.name ++ " @" ++ var.address.repr ++ " = " ++ var.value.resultText ++ "\n"

/-- What is told of a line that was refused, if that is asked for. -/
def explanation (palette : Palette) (options : Options) (line : String)
    (error : EvalError) : Output :=
  if options.explain then
    match error.render palette line with
    | some text => ⟨"", text, false, false⟩
    | none => ⟨"", "", false, true⟩
  else
    .empty

def failure (palette : Palette) (options : Options) (line : String)
    (error : EvalError) : Output :=
  ⟨"", EvalError.message ++ "\n", true, false⟩ ++
    explanation palette options line error

def evaluateLine (palette : Palette) (options : Options) (session : Session)
    (line : String) : Session × Output :=
  match session.evaluate line with
  | (session, .ok value) =>
      let text := value.resultText
      (session, .print (if options.echo then record line text else text))
  | (session, .error error) =>
      if options.echo then
        (session, ⟨record line EvalError.message ++ "\n", "", true, false⟩ ++
          explanation palette options line error)
      else
        (session, failure palette options line error)

def emitLine (palette : Palette) (options : Options) (emission : Emission)
    (session : Session) (line : String) : Session × Output :=
  match session.compile line with
  | (session, .ok compiled) =>
      match emission with
      | .bytecode => (session, ⟨listing compiled.code, "", false, false⟩)
      | .json => (session, .print (programJson compiled.code))
  | (session, .error error) => (session, failure palette options line error)

def runLine (palette : Palette) (options : Options) (session : Session)
    (line : String) : Session × Output :=
  let line := String.ofList (trimBlanks line.toList)
  if line = "" then
    (session, .empty)
  else if line = ":vars" then
    (session,
      ⟨String.join (session.definedVariables.map variableLine), "", false, false⟩)
  else
    match options.emit with
    | some emission => emitLine palette options emission session line
    | none => evaluateLine palette options session line

def runLines (palette : Palette) (options : Options) (session : Session) :
    List String -> Session × Output
  | [] => (session, .empty)
  | line :: rest =>
      let (session, output) := runLine palette options session line
      let (session, outputs) := runLines palette options session rest
      (session, output ++ outputs)

end CommandLine

end LineCalc
