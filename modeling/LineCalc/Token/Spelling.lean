import LineCalc.Decimal.Numeral
import LineCalc.Text.Blank
import LineCalc.Text.Offset
import LineCalc.Token.Basic

/-!
# How tokens are spelled

The tokens of a text can be told from the places at which they stand.  A place
is a slice of the text, and which token the slice spells depends on the
characters next to it, since words and numerals are as long as they can be.
What is left between the slices spells nothing.
-/

namespace LineCalc

/-- The characters with which tokens start. -/
def StartsToken (c : Char) : Prop :=
  c.isAlpha ∨ c.isDigit ∨ c ∈ ['.', '(', ')', '=', '+', '-', '*', '/']

/-- The characters in front of which a word ends. -/
def EndsWord (c : Char) : Prop :=
  c ∈ ['+', '-', '*', '/', '(', ')'] ∨ isBlank c

instance : DecidablePred StartsToken :=
  fun _ => inferInstanceAs (Decidable (_ ∨ _ ∨ _))

instance : DecidablePred EndsWord :=
  fun _ => inferInstanceAs (Decidable (_ ∨ _))

/-- The token that a slice spells between the texts before and after it. -/
inductive Token.Spelled (before after : List Char) :
    List Char -> Token -> Prop where
  | define :
      (forall c, after.head? = some c -> EndsWord c) ->
      Spelled before after ['d', 'e', 'f'] .define
  | name {first : Char} {others : List Char} :
      first.isAlpha ->
      (forall c, c ∈ others -> ¬ EndsWord c) ->
      (forall c, after.head? = some c -> EndsWord c) ->
      first :: others ≠ ['d', 'e', 'f'] ->
      Spelled before after (first :: others)
        (.name (String.ofList (first :: others)))
  | number {numeral : List Char} :
      numeral ≠ [] ->
      (forall c, c ∈ numeral -> isNumeralChar c) ->
      (forall c, before.getLast? = some c -> ¬ isNumeralChar c) ->
      (forall c, after.head? = some c -> ¬ isNumeralChar c) ->
      Spelled before after numeral (.number (.ofNumeral numeral))
  | openParen :
      Spelled before after ['('] .openParen
  | closeParen :
      Spelled before after [')'] .closeParen
  | equals :
      Spelled before after ['='] .equals
  | operator {op : Operator} :
      Spelled before after [op.symbol] (.operator op)

/-- Whether a byte of the line belongs to a span. -/
def Span.Covers (span : Span) (offset : Nat) : Prop :=
  span.start ≤ offset ∧ offset < span.stop

/-- The offset behind the last of some lexemes. -/
def Lexeme.lastStop (lexemes : List Lexeme) : Nat :=
  match lexemes.getLast? with
  | some last => last.span.stop
  | none => 0

/-- The lexemes of a text that stands behind another one. -/
structure Scanned (before text : List Char) (lexemes : List Lexeme) : Prop where
  nonempty : forall lexeme, lexeme ∈ lexemes ->
    lexeme.span.start < lexeme.span.stop
  ordered : lexemes.Pairwise fun left right => left.span.stop ≤ right.span.start
  /-- A span reaches from one end of a slice to the other, and the slice spells
  the token. -/
  spelled : forall lexeme, lexeme ∈ lexemes -> exists between slice after,
    text = between ++ slice ++ after ∧
      lexeme.span = ⟨byteLength (before ++ between),
        byteLength (before ++ between ++ slice)⟩ ∧
      Token.Spelled (before ++ between) after slice lexeme.token
  /-- A character outside all spans is a blank or starts no token. -/
  skipped : forall between c after, text = between ++ c :: after ->
    (forall lexeme, lexeme ∈ lexemes ->
      ¬ lexeme.span.Covers (byteLength (before ++ between))) ->
    isBlank c ∨ ¬ StartsToken c

end LineCalc
