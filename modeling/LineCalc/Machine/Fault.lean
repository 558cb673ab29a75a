import LineCalc.Machine.Compile
import LineCalc.Tree.Grammar

/-!
# Faults of lines

A line is at fault at a token if no sentence goes on with this token, if the
token is a name that is not bound or one parenthesis too many, or if it is the
`=` of a definition for which there is no storage.  A fault depends on the token
and on what has been read in front of it, and on nothing behind it.
-/

namespace LineCalc

namespace Machine

/-- The fault that a token is where a line has been read up to it, with the
error that reports it. -/
inductive Fault (machine : Machine) (symbols : SymbolTable) (maxDepth : Nat) :
    List Token -> Lexeme -> ParseError -> Prop where
  | illegal {read : List Token} {found : Lexeme} {error : ParseError} :
      Rule.line.Begins read ->
      ¬ Rule.line.Continues read found.token ->
      error.illegal? = some found ->
      Fault machine symbols maxDepth read found error
  /-- The name behind `def` is no operand, so it need not be bound. -/
  | undefined {read : List Token} {name : String} {span : Span} :
      Rule.line.Continues read (.name name) ->
      read ≠ [.define] ->
      symbols.lookup? name = none ->
      Fault machine symbols maxDepth read ⟨.name name, span⟩
        (.undefinedVariable name span)
  | tooDeep {read : List Token} {span : Span} :
      Rule.line.Continues read .openParen ->
      read.count .openParen = maxDepth + read.count .closeParen ->
      Fault machine symbols maxDepth read ⟨.openParen, span⟩
        (.tooDeep maxDepth span)
  | storage {name : String} {span : Span} :
      symbols.lookup? name = none ->
      machine.stack < machine.heap + 1 ->
      Fault machine symbols maxDepth [.define, .name name] ⟨.equals, span⟩
        (.storage (.heapExhausted 1 machine.heap machine.stack))

/-- No token of those that have been read is at fault. -/
def Faultless (machine : Machine) (symbols : SymbolTable) (maxDepth : Nat)
    (read : List Lexeme) : Prop :=
  forall before found after error, read = before ++ found :: after ->
    ¬ machine.Fault symbols maxDepth (before.map Lexeme.token) found error

/-- A line is read up to a lexeme, and neither its end nor a fault stands in
front of that. -/
structure Reaches (machine : Machine) (symbols : SymbolTable) (maxDepth : Nat)
    (stream : TokenStream) (read : List Lexeme) (found : Lexeme) : Prop where
  split : exists unread, stream.toList = read ++ found :: unread
  unended : .endOfInput ∉ read.map Lexeme.token
  faultless : machine.Faultless symbols maxDepth read

end Machine

end LineCalc
