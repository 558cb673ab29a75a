import LineCalc.Token.Basic

/-!
# Parentheses and their partners

The partner of a parenthesis that opens is the first one behind it that closes
and has nothing but balanced tokens in between.  Where a text ends early, some
parentheses have no partner, and the last of these is the innermost one.
-/

namespace LineCalc

/-- Tokens among which every parenthesis has its partner. -/
inductive Balanced : List Token -> Prop where
  | nil : Balanced []
  | cons {token : Token} {rest : List Token} :
      token ≠ .openParen ->
      token ≠ .closeParen ->
      Balanced rest ->
      Balanced (token :: rest)
  | group {inner rest : List Token} :
      Balanced inner ->
      Balanced rest ->
      Balanced (.openParen :: inner ++ .closeParen :: rest)

/-- Among the tokens stands the partner of a parenthesis that opens in front of
them. -/
def Closes (tokens : List Token) : Prop :=
  exists inner rest, tokens = inner ++ .closeParen :: rest ∧ Balanced inner

/-- The lexeme opens a parenthesis that has no partner behind it. -/
def Lexeme.StaysOpen (opening : Lexeme) (after : List Lexeme) : Prop :=
  opening.token = .openParen ∧ ¬ Closes (after.map Lexeme.token)

/-- Some parenthesis among the lexemes opens and has no partner. -/
def HasOpen (read : List Lexeme) : Prop :=
  exists before opening after, read = before ++ opening :: after ∧
    opening.StaysOpen after

/-- The last parenthesis among the lexemes that opens and has no partner. -/
def LastOpen (read : List Lexeme) (opening : Lexeme) : Prop :=
  exists before after, read = before ++ opening :: after ∧
    opening.StaysOpen after ∧
    forall between other rest, after = between ++ other :: rest ->
      ¬ other.StaysOpen rest

/-- The tokens with which an operand ends. -/
def Token.EndsOperand : Token -> Prop
  | .number _ => True
  | .name _ => True
  | .closeParen => True
  | _ => False

/-- The last of the lexemes ends an operand. -/
def EndsWithOperand (read : List Lexeme) : Prop :=
  exists last, read.getLast? = some last ∧ last.token.EndsOperand

end LineCalc
