import LineCalc.Session

/-!
# Diagnostics

A refusal is explained by its reason and, where a token is to blame, by the line
with carets under that token.

The token is known by byte offsets into the line that was evaluated.  Under
another line these are clamped to its end, and if a clamped offset falls inside
a character there is nothing that could be underlined.
-/

namespace LineCalc

/-- A text with a terminal style around it. -/
def styled (style text : String) : String :=
  "\x1b[" ++ style ++ "m" ++ text ++ "\x1b[0m"

/-- The styles of a diagnostic; without color a text is left as it is. -/
structure Palette where
  color : Bool
deriving DecidableEq, Repr

namespace Palette

def paint (palette : Palette) (style text : String) : String :=
  if palette.color then styled style text else text

def bold (palette : Palette) (text : String) : String :=
  palette.paint "1" text

def boldRed (palette : Palette) (text : String) : String :=
  palette.paint "1;31" text

def cyan (palette : Palette) (text : String) : String :=
  palette.paint "36" text

end Palette

/-- The part of a line that is underlined, in characters: how many stand in
front of it, and how many carets it takes. -/
structure Underline where
  indent : Nat
  carets : Nat
deriving DecidableEq, Repr

namespace Underline

/-- The underline of a span, clamped to the line.  It has a caret even where the
span is empty. -/
def ofSpan? (line : List Char) (span : Span) : Option Underline := do
  let length := byteLength line
  let stop := min span.stop length
  let (before, _) ← cutAt? (min span.start length) line
  let (covered, _) ← cutAt? stop line
  let (_, inside) ← cutAt? (min span.start stop) covered
  return ⟨before.length, max 1 inside.length⟩

end Underline

namespace EvalError

def label : EvalError -> String
  | parse (.undefinedVariable ..) => "not defined"
  | parse (.unclosedParen ..) => "expected ')'"
  | parse (.trailingInput ..) => "unexpected"
  | _ => "here"

def headline (palette : Palette) (error : EvalError) : String :=
  palette.boldRed "error" ++ ": " ++ palette.bold error.reason ++ "\n"

/-- The line with the place of the error and its underline. -/
def excerpt (palette : Palette) (line : String) (error : EvalError)
    (underline : Underline) : String :=
  let pipe := palette.cyan "|"
  let indent := String.ofList (List.replicate underline.indent ' ')
  let carets := String.ofList (List.replicate underline.carets '^')
  "  " ++ palette.cyan "-->" ++ " col " ++
    (underline.indent + 1).repr ++ "\n" ++
    "  " ++ pipe ++ "\n" ++
    "  " ++ pipe ++ " " ++ line ++ "\n" ++
    "  " ++ pipe ++ " " ++ indent ++ palette.boldRed carets ++ " " ++
      palette.boldRed error.label ++ "\n"

/-- The explanation of an error under a line, unless the error's span would
split a character of the line. -/
def render (palette : Palette) (line : String) (error : EvalError) :
    Option String :=
  match error.span? with
  | none => some (error.headline palette)
  | some span =>
      (Underline.ofSpan? line.toList span).map fun underline =>
        error.headline palette ++ error.excerpt palette line underline

end EvalError

end LineCalc
