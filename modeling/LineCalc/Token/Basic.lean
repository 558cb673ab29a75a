import LineCalc.Operator
import LineCalc.Binary64.Text

/-!
# Tokens

A line is a sequence of tokens, each with the range of bytes it was read from.
-/

namespace LineCalc

/-- A range of bytes in a line, from `start` up to and without `stop`. -/
structure Span where
  start : Nat
  stop : Nat
deriving DecidableEq, Repr

inductive Token
  /-- The keyword `def`. -/
  | define
  | name (text : String)
  | number (value : Binary64)
  | openParen
  | closeParen
  | equals
  | operator (op : Operator)
  /-- The end of a line.  The scanner puts one behind the last token only. -/
  | endOfInput
deriving DecidableEq, Repr

/-- A token with its place in the line. -/
structure Lexeme where
  token : Token
  span : Span
deriving DecidableEq, Repr

namespace Token

def text : Token -> String
  | define => "def"
  | name text => text
  | number value => value.plainText
  | openParen => "("
  | closeParen => ")"
  | equals => "="
  | operator op => op.symbol.toString
  | endOfInput => "end of input"

/-- The token that a character is by itself, if it is one. -/
def ofSymbol? (c : Char) : Option Token :=
  if c = '(' then some openParen
  else if c = ')' then some closeParen
  else if c = '=' then some equals
  else (Operator.ofSymbol? c).map operator

end Token

end LineCalc
