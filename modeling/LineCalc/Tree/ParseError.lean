import LineCalc.Machine.Error
import LineCalc.Token.Basic

/-!
# Parse errors

The reasons for which a line is not accepted, with the token to blame.
-/

namespace LineCalc

/-- What could have stood where another token was found. -/
inductive Expectation
  | variableName
  | equalsSign
  | operand
  | continuation
deriving DecidableEq, Repr

def Expectation.text : Expectation -> String
  | variableName => "identifier"
  | equalsSign => "'=' after variable name"
  | operand => "number, variable or '('"
  | continuation => "operator, ')' or end of input"

inductive ParseError
  /-- No sentence goes on with this token. -/
  | unexpected (expected : Expectation) (found : Lexeme)
  /-- The line ends before the parenthesis opened at the given offset closes. -/
  | unclosedParen (openedAt : Nat) (found : Lexeme)
  /-- A name is used that is not bound. -/
  | undefinedVariable (name : String) (span : Span)
  /-- A complete line is followed by this token. -/
  | trailingInput (found : Lexeme)
  /-- A parenthesis opens where `limit` of them are open. -/
  | tooDeep (limit : Nat) (span : Span)
  /-- There is no storage for the variable that the line defines. -/
  | storage (cause : MachineError)
deriving DecidableEq, Repr

namespace ParseError

/-- Where the token to blame stands.  Missing storage is no token's fault. -/
def span? : ParseError -> Option Span
  | unexpected _ found => some found.span
  | unclosedParen _ found => some found.span
  | undefinedVariable _ span => some span
  | trailingInput found => some found.span
  | tooDeep _ span => some span
  | storage _ => none

/-- The token that an error calls illegal. -/
def illegal? : ParseError -> Option Lexeme
  | unexpected _ found => some found
  | unclosedParen _ found => some found
  | trailingInput found => some found
  | _ => none

def message : ParseError -> String
  | unexpected expected found =>
      "expected " ++ expected.text ++ ", got '" ++ found.token.text ++ "'"
  | unclosedParen openedAt found =>
      "expected ')' to close '(' at " ++ openedAt.repr ++ ", got '" ++
        found.token.text ++ "'"
  | undefinedVariable name _ => "undefined variable: " ++ name
  | trailingInput found =>
      "unexpected '" ++ found.token.text ++ "' after complete input"
  | tooDeep limit _ => "parentheses nested deeper than " ++ limit.repr
  | storage cause => cause.message

end ParseError

/-- An error together with the number of registers that the code of the line had
claimed when it arose. -/
structure ParseFailure where
  error : ParseError
  registers : Nat
deriving DecidableEq, Repr

end LineCalc
