import LineCalc.Diagnostic
import LineCalc.Machine.Fault
import LineCalc.Text.Lines
import LineCalc.Token.Spelling

/-!
# What explanations show

An explanation gives the reason for which a line was refused, and under it the
line with carets under the token at fault.  The place of this token is told in
characters: those in front of it, and those of which it consists.
-/

namespace LineCalc

namespace Palette

/-- The lines of an explanation that points at a place of a line. -/
def pointing (palette : Palette) (reason line : String) (column carets : Nat)
    (label : String) : List String :=
  [palette.boldRed "error" ++ ": " ++ palette.bold reason,
    "  " ++ palette.cyan "-->" ++ " col " ++ column.repr,
    "  " ++ palette.cyan "|",
    "  " ++ palette.cyan "|" ++ " " ++ line,
    "  " ++ palette.cyan "|" ++ " " ++
      String.ofList (List.replicate (column - 1) ' ') ++
      palette.boldRed (String.ofList (List.replicate carets '^')) ++ " " ++
        palette.boldRed label]

end Palette

namespace Session

/-- The token at which a line is at fault. -/
structure Blames (session : Session) (line : String) (error : EvalError)
    (found : Lexeme) : Prop where
  span : error.span? = some found.span
  fault : exists read cause, error = .parse cause ∧
    session.machine.Reaches session.symbols session.maxDepth
      (.scan line) read found ∧
    session.machine.Fault session.symbols session.maxDepth
      (read.map Lexeme.token) found cause

/-- What is shown, without color, of the refusal of a line. -/
inductive Explains (session : Session) (line : String) (error : EvalError) :
    String -> Prop where
  | unplaced :
      error.span? = none ->
      Explains session line error (endedLines ["error: " ++ error.reason])
  /-- The token at fault has as many carets as characters. -/
  | atToken {found : Lexeme} {before slice after : List Char} :
      session.Blames line error found ->
      line.toList = before ++ slice ++ after ->
      found.span = ⟨byteLength before, byteLength (before ++ slice)⟩ ->
      Token.Spelled before after slice found.token ->
      Explains session line error
        (endedLines (Palette.pointing ⟨false⟩ error.reason line
          (before.length + 1) slice.length
          error.label))
  /-- At its end a line has a single caret, right behind the last token. -/
  | atEnd {found : Lexeme} {before after : List Char} :
      session.Blames line error found ->
      found.token = .endOfInput ->
      line.toList = before ++ after ->
      byteLength before = Lexeme.lastStop (TokenStream.scan line).pending ->
      Explains session line error
        (endedLines
          (Palette.pointing ⟨false⟩ error.reason line (before.length + 1) 1
          error.label))

end Session

end LineCalc
