import LineCalc.Decimal.Numeral
import LineCalc.Text.Blank
import LineCalc.Text.Offset
import LineCalc.Token.Stream

/-!
# Scanning

A line is cut into tokens from left to right, each as long as it can be:

* an ASCII letter with all characters behind it up to an operator, a parenthesis
or a blank is a name, or the keyword `def`; * a run of digits and points is a
numeral; * parentheses, operators and `=` are tokens of one character.

Blanks and all other characters are passed over.
-/

namespace LineCalc

/-- Names start with an ASCII letter. -/
def isNameStart (c : Char) : Bool :=
  c.isAlpha

/-- A name goes on up to an operator, a parenthesis or a blank; so `x=5` is a
name. -/
def isNameChar (c : Char) : Bool :=
  !(c = '(' || c = ')' || (Operator.ofSymbol? c).isSome || isBlank c)

def Token.ofWord (word : List Char) : Token :=
  if word = ['d', 'e', 'f'] then .define else .name (String.ofList word)

namespace Lexeme

/-- The lexemes of a text that starts at the given byte offset. -/
def scanFrom (start : Nat) : List Char -> List Lexeme
  | [] => []
  | c :: rest =>
      if isNameStart c then
        let word := c :: rest.takeWhile isNameChar
        let stop := start + byteLength word
        ⟨.ofWord word, ⟨start, stop⟩⟩ :: scanFrom stop
          (rest.dropWhile isNameChar)
      else if isNumeralChar c then
        let numeral := c :: rest.takeWhile isNumeralChar
        let stop := start + byteLength numeral
        ⟨.number (.ofNumeral numeral), ⟨start, stop⟩⟩ ::
          scanFrom stop (rest.dropWhile isNumeralChar)
      else
        let stop := start + c.utf8Size
        match Token.ofSymbol? c with
        | some token => ⟨token, ⟨start, stop⟩⟩ :: scanFrom stop rest
        | none => scanFrom stop rest
termination_by text => text.length
decreasing_by
  · simpa [Nat.lt_succ_iff] using (List.dropWhile_sublist isNameChar).length_le
  · simpa [Nat.lt_succ_iff] using
      (List.dropWhile_sublist isNumeralChar).length_le
  all_goals simp

end Lexeme

def TokenStream.scan (line : String) : TokenStream :=
  .ofLexemes (Lexeme.scanFrom 0 line.toList)

end LineCalc
