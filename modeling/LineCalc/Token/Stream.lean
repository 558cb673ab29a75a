import LineCalc.Token.Basic

/-!
# Token streams

A stream holds the lexemes of a line that are still to be read, and closes with
an end of input that can be read any number of times.
-/

namespace LineCalc

/-- The lexemes still to be read, and the offset at which the line ends. -/
structure TokenStream where
  pending : List Lexeme
  stop : Nat
deriving DecidableEq, Repr

namespace TokenStream

/-- The stream of all of `lexemes`, closed right behind the last of them. -/
def ofLexemes (lexemes : List Lexeme) : TokenStream where
  pending := lexemes
  stop := (lexemes.getLast?.map (·.span.stop)).getD 0

def closing (stream : TokenStream) : Lexeme :=
  ⟨.endOfInput, ⟨stream.stop, stream.stop⟩⟩

/-- The lexemes still to be read, the closing one included. -/
def toList (stream : TokenStream) : List Lexeme :=
  stream.pending ++ [stream.closing]

def peek (stream : TokenStream) : Lexeme :=
  stream.pending.headD stream.closing

/-- The stream after its next lexeme.  Nothing follows the closing one. -/
def advance (stream : TokenStream) : TokenStream :=
  { stream with pending := stream.pending.tail }

def pop (stream : TokenStream) : Lexeme × TokenStream :=
  (stream.peek, stream.advance)

/-- Whether the next lexeme is an end of input. -/
def atEnd (stream : TokenStream) : Bool :=
  stream.peek.token = .endOfInput

/-- How many lexemes are still to be read, the closing one included. -/
def remaining (stream : TokenStream) : Nat :=
  stream.pending.length + 1

theorem head?_toList (stream : TokenStream) :
    stream.toList.head? = some stream.peek := by
  rcases stream with ⟨_ | ⟨first, rest⟩, stop⟩ <;> rfl

theorem toList_advance {stream : TokenStream} (h : stream.pending ≠ []) :
    stream.advance.toList = stream.toList.tail := by
  rcases stream with ⟨_ | ⟨first, rest⟩, stop⟩
  · exact absurd rfl h
  · rfl

end TokenStream

end LineCalc
