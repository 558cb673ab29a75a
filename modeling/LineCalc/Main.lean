import LineCalc.CommandLine.Run

/-!
# The executable

Reads what the command line names, runs the program on it and writes the answer.
-/

open LineCalc.CommandLine

/-- The system's own number and text of a failure: numbers may come negated, as
32-bit words, and texts in small letters. -/
def systemFailure (code : UInt32) (text : String) : ReadFailure where
  text := text.capitalize
  code :=
    if code.toNat < 0x80000000 then code.toNat else 0x100000000 - code.toNat

def readFile (path : String) : IO (Except ReadFailure ByteArray) := do
  match ← (IO.FS.readBinFile path).toBaseIO with
  | .ok bytes => return .ok bytes
  | .error (.noFileOrDirectory _ code text) =>
      return .error (systemFailure code text)
  | .error (.permissionDenied _ code text) =>
      return .error (systemFailure code text)
  | .error (.inappropriateType _ code text) =>
      return .error (systemFailure code text)
  | .error e => return .error ⟨e.toString, 5⟩

def readFiles (options : Options) : IO FileSystem := do
  let read ← (options.config.toList ++ options.file.toList).mapM fun path => do
    return (path, ← readFile path)
  return fun path =>
    (read.lookup path).getD (.error ⟨"No such file or directory", 2⟩)

def usage : String :=
  "usage: linecalc [--echo] [--emit bytecode|json] [--explain] [--verbose] " ++
    "[--config PATH]\n" ++
    "         [--max-depth N] [--heap-base N] [--stack-top N] [--file PATH | LINE...]\n"

def version : String :=
  "linecalc 0.1.0\n"

def main (words : List String) : IO UInt32 := do
  match Request.ofWords? words with
  | none =>
      (← IO.getStderr).putStr usage
      return 2
  | some (.answer .help) =>
      (← IO.getStdout).putStr usage
      return 0
  | some (.answer .version) =>
      (← IO.getStdout).putStr version
      return 0
  | some (.perform options) =>
      let files ← readFiles options
      let stdin ←
        if options.file.isNone ∧
        options.lines = [] then (← IO.getStdin).readBinToEnd
        else pure .empty
      let outcome := run options files stdin { Surroundings.plain with
        terminal := ← (← IO.getStderr).isTty }
      (← IO.getStdout).putStr outcome.stdout
      (← IO.getStderr).putStr outcome.stderr
      return outcome.code.toUInt32
