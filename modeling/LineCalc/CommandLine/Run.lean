import LineCalc.CommandLine.Lines
import LineCalc.Config.Json
import LineCalc.Text.Lines

/-!
# The program

The program settles its configuration, takes its lines from a file, from the
arguments or from standard input, and runs them.  Its exit code tells whether
every line was accepted.
-/

namespace LineCalc

namespace CommandLine

/-- Why a file could not be read: the operating system's text and number. -/
structure ReadFailure where
  text : String
  code : Nat
deriving DecidableEq, Repr

def ReadFailure.message (failure : ReadFailure) : String :=
  failure.text ++ " (os error " ++ failure.code.repr ++ ")"

/-- What can be read of a file system: the bytes at a path, or why there are
none. -/
abbrev FileSystem := String -> Except ReadFailure ByteArray

/-- What the program takes from elsewhere: whether standard error is a terminal,
and texts that it does not compose itself. -/
structure Surroundings where
  terminal : Bool
  /-- Why a text holds no configuration, if that is known. -/
  configFault : String -> Option String
  answer : Question -> String

/-- No terminal, and no texts. -/
def Surroundings.plain : Surroundings where
  terminal := false
  configFault := fun _ => none
  answer := fun _ => ""

/-- What the program answers.  Lines of a log are left out of standard error. -/
structure Outcome where
  code : Nat
  stdout : String
  stderr : String
deriving DecidableEq, Repr

def invalidEncoding : String :=
  "stream did not contain valid UTF-8"

def readText (files : FileSystem) (path : String) : Except String String :=
  match files path with
  | .error failure =>
      .error ("Error reading " ++ path ++ ": " ++ failure.message)
  | .ok bytes =>
      match String.fromUTF8? bytes with
      | some text => .ok text
      | none => .error ("Error reading " ++ path ++ ": " ++ invalidEncoding)

/-- The configuration of a file, or the standard one if none is named. -/
def baseConfig (surroundings : Surroundings) (files : FileSystem)
    (options : Options) : Except String Config :=
  match options.config with
  | none => .ok .standard
  | some path =>
      match readText files path with
      | .error message => .error message
      | .ok text =>
          match Config.parse? text with
          | some config => .ok config
          | none =>
              .error ("Invalid config " ++ path ++
                ((surroundings.configFault text).map (": " ++ ·)).getD "")

/-- The configuration to run with: settings on the command line come before
those of the file. -/
def loadConfig (surroundings : Surroundings) (files : FileSystem)
    (options : Options) : Except String Config :=
  match baseConfig surroundings files options with
  | .error message => .error message
  | .ok base =>
      let config : Config := {
        heapBase := options.heapBase.getD base.heapBase
        stackTop := options.stackTop.getD base.stackTop
        maxDepth := options.maxDepth.getD base.maxDepth }
      if config.stackTop < config.heapBase then
        .error ("heap base " ++ config.heapBase.repr ++
          " lies above stack top " ++ config.stackTop.repr)
      else
        .ok config

def refusal (code : Nat) (message : String) : Outcome :=
  ⟨code, "", message ++ "\n"⟩

/-- The outcome of a run whose lines have left an output. -/
def Outcome.ofOutput (output : Output) : Outcome :=
  ⟨if output.stopped then 101 else if output.failed then 1 else 0,
    output.stdout, output.stderr⟩

def runAll (palette : Palette) (options : Options) (config : Config)
    (lines : List String) : Outcome :=
  .ofOutput (runLines palette options (.new config) lines).2

/-- Runs the lines of standard input up to one that is not UTF-8. -/
def runStream (palette : Palette) (options : Options) (config : Config)
    (stdin : ByteArray) : Outcome :=
  match streamLines stdin with
  | (lines, true) => runAll palette options config lines
  | (lines, false) =>
      let told := "Error reading input: " ++ invalidEncoding ++ "\n"
      .ofOutput ((runLines palette options (.new config) lines).2 ++
        ⟨"", told, true, false⟩)

/-- Runs the program.  Diagnostics are colored on a terminal. -/
def run (options : Options) (files : FileSystem) (stdin : ByteArray)
    (surroundings : Surroundings := .plain) : Outcome :=
  let palette : Palette := ⟨surroundings.terminal⟩
  match loadConfig surroundings files options with
  | .error message => refusal 2 message
  | .ok config =>
      match options.file with
      | some path =>
          match readText files path with
          | .error message => refusal 1 message
          | .ok text => runAll palette options config (fileLines text)
      | none =>
          if options.lines ≠ [] then
            runAll palette options config options.lines
          else
            runStream palette options config stdin

/-- Runs the program on the words of a command line, unless they are refused. -/
def runWords? (words : List String) (files : FileSystem) (stdin : ByteArray)
    (surroundings : Surroundings) : Option Outcome :=
  (Request.ofWords? words).map fun
    | .answer question => ⟨0, surroundings.answer question, ""⟩
    | .perform options => run options files stdin surroundings

end CommandLine

end LineCalc
