import LineCalc.Token.Stream
import LineCalc.Tree.Reading

/-!
# Statements

A line is an expression, or `def`, a name, `=` and an expression.  The storage
of the variable is settled before the expression is read.
-/

namespace LineCalc

/-- A line as a tree: an expression, and the storage of the variable that is to
take its value if there is one. -/
structure Statement where
  binding : Option Binding
  body : Expression

namespace Statement

/-- The expression that a stream holds up to its first end of input. -/
def parseBody (scope : Scope) (binding : Option Binding)
    (stream : TokenStream) : Except ParseFailure Statement :=
  (Reading.start.run scope stream.closing stream.pending).map
    (Statement.mk binding)

/-- The definition that a stream holds behind its `def`.  Up to the `=` only the
register of the line's value has been claimed. -/
def parseDefinition (scope : Scope) (stream : TokenStream) :
    Except ParseFailure Statement :=
  match stream.peek.token with
  | .name name =>
      let stream := stream.advance
      if stream.peek.token = .equals then
        match scope.bind name with
        | .ok binding => parseBody scope (some binding) stream.advance
        | .error cause => .error ⟨.storage cause, 1⟩
      else
        .error ⟨.unexpected .equalsSign stream.peek, 1⟩
  | _ => .error ⟨.unexpected .variableName stream.peek, 1⟩

/-- The line that a stream holds up to its first end of input. -/
def parse (scope : Scope) (stream : TokenStream) :
    Except ParseFailure Statement :=
  if stream.peek.token = .define then
    parseDefinition scope stream.advance
  else
    parseBody scope none stream

end Statement

end LineCalc
