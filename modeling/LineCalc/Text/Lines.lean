/-!
# Lines

A text falls into lines that end behind a line feed, the last one perhaps
without it.  Files give their lines without terminators; a stream of bytes gives
them with, and each has to be UTF-8 by itself.
-/

namespace LineCalc

/-- Cuts a list behind every element that ends a piece. -/
def splitAfter {α : Type} (isEnd : α -> Bool) : List α -> List (List α)
  | [] => []
  | a :: rest =>
      if isEnd a then
        [a] :: splitAfter isEnd rest
      else
        match splitAfter isEnd rest with
        | [] => [[a]]
        | piece :: pieces => (a :: piece) :: pieces

/-- A line without its line feed and without a carriage return before that. -/
def stripTerminator (line : List Char) : List Char :=
  match line.reverse with
  | '\n' :: '\r' :: rest => rest.reverse
  | '\n' :: rest => rest.reverse
  | _ => line

/-- The lines of a file, without terminators. -/
def fileLines (text : String) : List String :=
  (splitAfter (· = '\n') text.toList).map fun line =>
    String.ofList (stripTerminator line)

/-- Lines one under the other, each of them ended by a line feed. -/
def endedLines (lines : List String) : String :=
  String.join (lines.map fun line => line ++ "\n")

/-- The lines at the beginning of a list of encoded lines that are UTF-8, and
whether that is all of them. -/
def decodeLines : List (List UInt8) -> List String × Bool
  | [] => ([], true)
  | line :: rest =>
      match String.fromUTF8? ⟨line.toArray⟩ with
      | some text =>
          let (texts, valid) := decodeLines rest
          (text :: texts, valid)
      | none => ([], false)

/-- The lines of a stream of bytes, with their terminators, up to the first that
is not UTF-8, and whether there is none such. -/
def streamLines (bytes : ByteArray) : List String × Bool :=
  decodeLines (splitAfter (· = 0x0a) bytes.data.toList)

end LineCalc
