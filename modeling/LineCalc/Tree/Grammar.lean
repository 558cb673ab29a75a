import LineCalc.Tree.Tokens

/-!
# The grammar of lines

The lines that make sense are the sentences of this grammar:

* a line is `def`, a name, `=` and an expression, or an expression; * an
expression is a term and any number of further terms, each behind `+` or `-`; *
a term is a factor and any number of further factors, each behind `*` or `/`; *
a factor is an expression in parentheses, a number or a name.

The rules speak of token lists only.  A parse tree says in addition how the
operands group.
-/

namespace LineCalc

/-!
## Sentences
-/

/-- The rules of the grammar.  The rests are what may follow the first operand
of an expression or a term. -/
inductive Rule where
  | line
  | expression
  | expressionRest
  | term
  | termRest
  | factor

/-- The sentences of each rule. -/
inductive Derives : Rule -> List Token -> Prop where
  | definition {name : String} {body : List Token} :
      Derives .expression body ->
      Derives .line (.define :: .name name :: .equals :: body)
  | evaluation {body : List Token} :
      Derives .expression body ->
      Derives .line body
  | sum {first rest : List Token} :
      Derives .term first ->
      Derives .expressionRest rest ->
      Derives .expression (first ++ rest)
  | sumEnd :
      Derives .expressionRest []
  | sumNext {op : Additive} {next rest : List Token} :
      Derives .term next ->
      Derives .expressionRest rest ->
      Derives .expressionRest (.operator (.additive op) :: next ++ rest)
  | product {first rest : List Token} :
      Derives .factor first ->
      Derives .termRest rest ->
      Derives .term (first ++ rest)
  | productEnd :
      Derives .termRest []
  | productNext {op : Multiplicative} {next rest : List Token} :
      Derives .factor next ->
      Derives .termRest rest ->
      Derives .termRest (.operator (.multiplicative op) :: next ++ rest)
  | group {inner : List Token} :
      Derives .expression inner ->
      Derives .factor (.openParen :: inner ++ [.closeParen])
  | number {value : Binary64} :
      Derives .factor [.number value]
  | name {name : String} :
      Derives .factor [.name name]

/-!
## Beginnings of sentences
-/

/-- Some sentence of a rule starts with what has been read. -/
def Rule.Begins (rule : Rule) (read : List Token) : Prop :=
  exists rest, Derives rule (read ++ rest)

/-- Some sentence of a rule goes on with a token behind what has been read, or
ends there if the token is the end of the input. -/
def Rule.Continues (rule : Rule) (read : List Token) : Token -> Prop
  | .endOfInput => Derives rule read
  | token => exists rest, Derives rule (read ++ token :: rest)

/-!
## Parse trees
-/

/-- The parse tree of a line: the name that it defines, if it is a definition,
and the tree of its expression. -/
structure Line where
  defined : Option String
  body : Expression

def Line.tokens (line : Line) : List Token :=
  match line.defined with
  | none => line.body.tokens
  | some name => .define :: .name name :: .equals :: line.body.tokens

/-- The parse tree of a statement leaves out where its variable is stored. -/
def Statement.line (statement : Statement) : Line :=
  ⟨statement.binding.map Binding.name, statement.body⟩

/-!
## Parts of a line
-/

def Token.definedName? : List Token -> Option String
  | .define :: .name defined :: .equals :: _ => some defined
  | _ => none

/-- The tokens of a line that belong to its expression. -/
def Token.expressionPart : List Token -> List Token
  | .define :: .name _ :: .equals :: body => body
  | tokens => tokens

/-- However far a line is read, at most `limit` parentheses are open. -/
def NestsWithin (limit : Nat) (tokens : List Token) : Prop :=
  forall read, read <+: tokens ->
    read.count .openParen ≤ limit + read.count .closeParen

/-- The tokens of a stream up to its first end of input. -/
def TokenStream.lineTokens (stream : TokenStream) : List Token :=
  (stream.toList.map Lexeme.token).takeWhile (· ≠ .endOfInput)

end LineCalc
