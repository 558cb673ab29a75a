import LineCalc.Text.Lines
import LineCalc.Text.Blank
import Mathlib.Data.List.DropRight

/-!
# Trimming

What ends a line is blank, so a line trimmed with its terminator is the line
trimmed without.  What is left of a list of lines are the trimmed ones that are
not empty.
-/

namespace LineCalc

/-!
## Trimmed texts
-/

theorem trimBlanks_eq_rdropWhile (text : List Char) :
    trimBlanks text = (text.dropWhile isBlank).rdropWhile isBlank :=
  rfl

@[simp] theorem trimBlanks_trimBlanks (text : List Char) :
    trimBlanks (trimBlanks text) = trimBlanks text := by
  have hhead : (trimBlanks text).dropWhile isBlank = trimBlanks text := by
    rw [List.dropWhile_eq_self_iff]
    intro hpos hblank
    have hfront : trimBlanks text <+: text.dropWhile isBlank :=
      List.rdropWhile_prefix isBlank _
    have hpos' : 0 < (text.dropWhile isBlank).length :=
      Nat.lt_of_lt_of_le hpos hfront.length_le
    have hfirst := List.dropWhile_get_zero_not isBlank text hpos'
    apply hfirst
    simpa [hfront.getElem hpos] using hblank
  rw [trimBlanks_eq_rdropWhile (trimBlanks text), hhead,
    trimBlanks_eq_rdropWhile, List.rdropWhile_idempotent]

theorem trimBlanks_concat_of_isBlank {c : Char} (hc : isBlank c = true)
    (text : List Char) :
    trimBlanks (text ++ [c]) = trimBlanks text := by
  rw [trimBlanks_eq_rdropWhile, trimBlanks_eq_rdropWhile, List.dropWhile_append]
  split
  · rename_i hempty
    rw [List.isEmpty_iff.mp hempty, List.dropWhile_cons_of_pos hc]
    rfl
  · rw [List.rdropWhile_concat_pos isBlank _ c hc]

theorem trimBlanks_stripTerminator (line : List Char) :
    trimBlanks (stripTerminator line) = trimBlanks line := by
  have hfeed : isBlank '\n' = true := by decide
  have hreturn : isBlank '\r' = true := by decide
  rw [stripTerminator]
  split
  · rename_i rest hreverse
    rw [← List.reverse_reverse line, hreverse, List.reverse_cons,
      List.reverse_cons, trimBlanks_concat_of_isBlank hfeed,
      trimBlanks_concat_of_isBlank hreturn]
  · rename_i rest _ hreverse
    rw [← List.reverse_reverse line, hreverse, List.reverse_cons,
      trimBlanks_concat_of_isBlank hfeed]
  · rfl

/-!
## Trimmed lines
-/

def trimmedLine (line : String) : String :=
  String.ofList (trimBlanks line.toList)

def nonblankLines (lines : List String) : List String :=
  (lines.map trimmedLine).filter (· ≠ "")

@[simp] theorem trimmedLine_trimmedLine (line : String) :
    trimmedLine (trimmedLine line) = trimmedLine line := by
  rw [trimmedLine, trimmedLine, String.toList_ofList, trimBlanks_trimBlanks]

theorem trimmedLine_ofList_concat {c : Char} (hc : isBlank c = true)
    (text : List Char) :
    trimmedLine (String.ofList (text ++ [c])) =
      trimmedLine (String.ofList text) := by
  rw [trimmedLine, trimmedLine, String.toList_ofList, String.toList_ofList,
    trimBlanks_concat_of_isBlank hc]

theorem trimmedLine_ofList_stripTerminator (line : List Char) :
    trimmedLine (String.ofList (stripTerminator line)) =
      trimmedLine (String.ofList line) := by
  rw [trimmedLine, trimmedLine, String.toList_ofList, String.toList_ofList,
    trimBlanks_stripTerminator]

theorem nonblankLines_cons_of_eq {line : String} (h : trimmedLine line = "")
    (rest : List String) :
    nonblankLines (line :: rest) = nonblankLines rest := by
  simp [nonblankLines, h]

theorem nonblankLines_cons_of_ne {line : String} (h : trimmedLine line ≠ "")
    (rest : List String) :
    nonblankLines (line :: rest) = trimmedLine line :: nonblankLines rest := by
  simp [nonblankLines, h]

theorem nonblankLines_cons_congr {line other : String}
    {rest others : List String} (hline : trimmedLine line = trimmedLine other)
    (hrest : nonblankLines rest = nonblankLines others) :
    nonblankLines (line :: rest) = nonblankLines (other :: others) := by
  simp only [nonblankLines, List.map_cons, List.filter_cons] at hrest ⊢
  rw [hline, hrest]

theorem nonblankLines_fileLines (text : String) :
    nonblankLines (fileLines text) =
      nonblankLines ((splitAfter (· = '\n') text.toList).map String.ofList) := by
  rw [fileLines]
  induction splitAfter (· = '\n') text.toList with
  | nil => rfl
  | cons line rest ih =>
      exact nonblankLines_cons_congr
        (trimmedLine_ofList_stripTerminator line) ih

end LineCalc
