/-!
# Arguments

The arguments of the program are lines and options in any order, up to `--`,
behind which all are lines.  An option has a long name, and two have a letter
too.  A value is the next argument, or stands behind a `=`, or right behind the
letter.  What is not understood, given twice or contradictory is refused as a
whole.
-/

namespace LineCalc

namespace CommandLine

inductive Flag
  | echo
  | explain
  | verbose
deriving DecidableEq, Repr

inductive Setting
  | file
  | emit
  | config
  | maxDepth
  | heapBase
  | stackTop
deriving DecidableEq, Repr

/-- What the program can be asked instead of running it. -/
inductive Question
  | help
  | version
deriving DecidableEq, Repr

/-- What is printed of a program instead of running it. -/
inductive Emission
  | bytecode
  | json
deriving DecidableEq, Repr

inductive Argument
  | flag (name : Flag)
  | setting (name : Setting) (value : String)
  | line (text : String)
  | ask (question : Question)
deriving DecidableEq, Repr

def Flag.ofName? : String -> Option Flag
  | "echo" => some echo
  | "explain" => some explain
  | "verbose" => some verbose
  | _ => none

def Setting.ofName? : String -> Option Setting
  | "file" => some file
  | "emit" => some emit
  | "config" => some config
  | "max-depth" => some maxDepth
  | "heap-base" => some heapBase
  | "stack-top" => some stackTop
  | _ => none

def Question.ofName? : String -> Option Question
  | "help" => some help
  | "version" => some version
  | _ => none

/-!
## Words
-/

/-- What one word of the command line stands for. -/
inductive WordMeaning
  | complete (arguments : List Argument)
  /-- The next word is the value of a setting. -/
  | awaiting (arguments : List Argument) (setting : Setting)
  /-- A question is answered without reading on. -/
  | asking (arguments : List Argument) (question : Question)
  /-- The end of the options. -/
  | separator
deriving DecidableEq, Repr

namespace WordMeaning

/-- An option by its long name, perhaps with a value behind a `=`. -/
def ofLong? (text : List Char) : Option WordMeaning :=
  let name := String.ofList (text.takeWhile (· ≠ '='))
  match text.dropWhile (· ≠ '=') with
  | [] =>
      match Flag.ofName? name with
      | some flag => some (complete [.flag flag])
      | none =>
          match Question.ofName? name with
          | some question => some (asking [] question)
          | none => (Setting.ofName? name).map (awaiting [])
  | _ :: value =>
      (Setting.ofName? name).map fun setting =>
        complete [.setting setting (String.ofList value)]

/-- Options by their letters.  The letter of a setting takes the rest of the
word as its value. -/
def ofLetters? : List Char -> Option WordMeaning
  | [] => some (complete [])
  | 'h' :: _ => some (asking [] .help)
  | 'V' :: _ => some (asking [] .version)
  | 'v' :: rest =>
      match ofLetters? rest with
      | some (complete arguments) =>
          some (complete (.flag .verbose :: arguments))
      | some (awaiting arguments setting) =>
          some (awaiting (.flag .verbose :: arguments) setting)
      | some (asking arguments question) =>
          some (asking (.flag .verbose :: arguments) question)
      | _ => none
  | ['f'] => some (awaiting [] .file)
  | 'f' :: '=' :: value =>
      some (complete [.setting .file (String.ofList value)])
  | 'f' :: value => some (complete [.setting .file (String.ofList value)])
  | _ => none

/-- A word before the end of the options.  A `-` alone is a line. -/
def ofString? (word : String) : Option WordMeaning :=
  match word.toList with
  | ['-', '-'] => some separator
  | '-' :: '-' :: name => ofLong? name
  | '-' :: c :: letters => ofLetters? (c :: letters)
  | _ => some (complete [.line word])

end WordMeaning

/-- Whether a word can be the value of the option before it. -/
def isValue (word : String) : Bool :=
  word = "-" || word.toList.head? ≠ some '-'

/-- The arguments that the words of a command line stand for. -/
def Argument.ofWords? : List String -> Option (List Argument)
  | [] => some []
  | word :: rest =>
      match WordMeaning.ofString? word with
      | none => none
      | some .separator => some (rest.map .line)
      | some (.asking arguments question) => some (arguments ++ [.ask question])
      | some (.complete arguments) => (ofWords? rest).map (arguments ++ ·)
      | some (.awaiting arguments name) =>
          match rest with
          | [] => none
          | value :: rest =>
              if isValue value then
                (ofWords? rest).map (arguments ++ .setting name value :: ·)
              else
                none

/-!
## Options
-/

/-- What the program was asked to do. -/
structure Options where
  lines : List String
  file : Option String
  echo : Bool
  emit : Option Emission
  explain : Bool
  config : Option String
  maxDepth : Option Nat
  heapBase : Option Nat
  stackTop : Option Nat
  /-- Asks for a log, which is none of the program's output. -/
  verbose : Bool
deriving DecidableEq, Repr

namespace Options

/-- A path is any text but the empty one. -/
def path? (value : String) : Option String :=
  if value = "" then none else some value

def emission? : String -> Option Emission
  | "bytecode" => some .bytecode
  | "json" => some .json
  | _ => none

/-- A natural number of 64 bits in decimal digits, perhaps behind a plus
sign. -/
def natural? (value : String) : Option Nat :=
  let digits :=
    match value.toList with
    | '+' :: digits => digits
    | digits => digits
  if digits ≠ [] ∧ digits.all Char.isDigit then
    some (Nat.ofDigitChars 10 digits 0) |>.filter (· < 0x10000000000000000)
  else
    none

/-- Whether a flag is given, unless it is given twice. -/
def flag? (arguments : List Argument) (flag : Flag) : Option Bool :=
  match arguments.count (.flag flag) with
  | 0 => some false
  | 1 => some true
  | _ => none

/-- The value of a setting if it is given, unless it is given twice or its value
cannot be read. -/
def setting? {α : Type} (arguments : List Argument) (setting : Setting)
    (read? : String -> Option α) : Option (Option α) :=
  let values := arguments.filterMap fun
    | .setting name value => if name = setting then some value else none
    | _ => none
  match values with
  | [] => some none
  | [value] => (read? value).map some
  | _ => none

def linesOf (arguments : List Argument) : List String :=
  arguments.filterMap fun
    | .line text => some text
    | _ => none

/-- The questions that are asked: no more than one, for it is the last
argument. -/
def questionsOf (arguments : List Argument) : List Question :=
  arguments.filterMap fun
    | .ask question => some question
    | _ => none

/-- The options that arguments ask for, if they can be read. -/
def ofArguments? (arguments : List Argument) : Option Options := do
  return {
    lines := linesOf arguments
    file := ← setting? arguments .file path?
    echo := ← flag? arguments .echo
    emit := ← setting? arguments .emit emission?
    explain := ← flag? arguments .explain
    config := ← setting? arguments .config path?
    maxDepth := ← setting? arguments .maxDepth natural?
    heapBase := ← setting? arguments .heapBase natural?
    stackTop := ← setting? arguments .stackTop natural?
    verbose := ← flag? arguments .verbose }

end Options

/-- What the words of a command line ask for. -/
inductive Request
  | answer (question : Question)
  | perform (options : Options)

/-- What words ask for, if they make sense.  A question comes before all that
might be wrong with the options together, but not before what is wrong in front
of it. -/
def Request.ofWords? (words : List String) : Option Request := do
  let arguments ← Argument.ofWords? words
  let options ← Options.ofArguments? arguments
  match Options.questionsOf arguments with
  | question :: _ => return answer question
  | [] =>
      if options.file.isSome ∧
        options.lines ≠ [] then none else return perform options

/-- The options of words that ask for a run. -/
def Options.ofWords? (words : List String) : Option Options :=
  match Request.ofWords? words with
  | some (.perform options) => some options
  | _ => none

end CommandLine

end LineCalc
