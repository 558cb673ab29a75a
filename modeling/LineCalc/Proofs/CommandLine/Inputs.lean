import LineCalc.CommandLine.Run
import LineCalc.Proofs.CommandLine.Arguments
import LineCalc.Proofs.CommandLine.Lines
import LineCalc.Proofs.Text.Lines

/-!
# Where lines come from

The program takes its lines from a file, from standard input or from its
arguments, and cuts a text into lines in a way of its own for each.  The three
ways differ in what they leave of line ends and in blank lines, so in nothing
that trimming leaves.
-/

namespace LineCalc

namespace CommandLine

variable {options : Options} {files : FileSystem} {surroundings : Surroundings}

/-!
## Runs on a list of lines
-/

def runOn (surroundings : Surroundings) (options : Options) (files : FileSystem)
    (lines : List String) : Outcome :=
  match loadConfig surroundings files options with
  | .error message => refusal 2 message
  | .ok config => runAll ⟨surroundings.terminal⟩ options config lines

theorem runOn_congr {lines others : List String}
    (h : nonblankLines lines = nonblankLines others) :
    runOn surroundings options files lines =
      runOn surroundings options files others := by
  cases hconfig : loadConfig surroundings files options with
  | error message => rw [runOn, runOn, hconfig]
  | ok config =>
      rw [runOn, runOn, hconfig]
      simp only [runAll, runLines_congr _ options (.new config) h]

theorem runLines_with_source {palette : Palette} (file : Option String)
    (given : List String) (session : Session) (lines : List String) :
    runLines palette { options with file := file, lines := given } session
        lines =
      runLines palette options session lines := by
  induction lines generalizing session with
  | nil => rfl
  | cons line rest ih =>
      have hline :
          runLine palette { options with file := file, lines := given } session
              line =
          runLine palette options session line := rfl
      rw [runLines_cons, runLines_cons, hline, ih]

theorem runOn_with_source (file : Option String) (given lines : List String) :
    runOn surroundings { options with file := file, lines := given } files
        lines =
      runOn surroundings options files lines := by
  have hload :
      loadConfig surroundings files
          { options with file := file, lines := given } =
      loadConfig surroundings files options := rfl
  rw [runOn, runOn, hload]
  cases loadConfig surroundings files options with
  | error message => rfl
  | ok config => simp only [runAll, runLines_with_source]

/-!
## The three sources
-/

theorem run_file {path text : String} (hfile : files path = .ok text.toUTF8)
    (stdin : ByteArray) :
    run { options with file := some path } files stdin surroundings =
      runOn surroundings options files (fileLines text) := by
  have htext : readText files path = .ok text := by
    rw [readText, hfile]
    simp only [fromUTF8?_toUTF8]
  rw [← runOn_with_source (some path) options.lines, run, runOn]
  cases loadConfig surroundings files { options with file := some path } with
  | error message => rfl
  | ok config => simp only [htext]

theorem run_lines {lines : List String} (hfile : options.file = none)
    (hne : lines ≠ []) (stdin : ByteArray) :
    run { options with lines := lines } files stdin surroundings =
      runOn surroundings options files lines := by
  rw [← runOn_with_source options.file lines, run, runOn]
  cases loadConfig surroundings files { options with lines := lines } with
  | error message => rfl
  | ok config => simp only [hfile, if_pos hne]

theorem run_stdin (hfile : options.file = none) (hlines : options.lines = [])
    (text : String) :
    run options files text.toUTF8 surroundings =
      runOn surroundings options files
        ((splitAfter (· = '\n') text.toList).map String.ofList) := by
  rw [run, runOn]
  cases loadConfig surroundings files options with
  | error message => rfl
  | ok config =>
      simp only [hfile, hlines, ne_eq, not_true_eq_false, if_false, runStream,
        streamLines_toUTF8]

inductive TakesLines (options : Options) (files : FileSystem)
    (stdin : ByteArray) :
    List String -> Prop where
  | file {path text : String} :
      options.file = some path ->
      readText files path = .ok text ->
      TakesLines options files stdin (fileLines text)
  | arguments :
      options.file = none ->
      options.lines ≠ [] ->
      TakesLines options files stdin options.lines
  | stdin {lines : List String} :
      options.file = none ->
      options.lines = [] ->
      streamLines stdin = (lines, true) ->
      TakesLines options files stdin lines

theorem run_of_takesLines {stdin : ByteArray} {config : Config}
    {lines : List String} (hlines : TakesLines options files stdin lines)
    (hconfig : loadConfig surroundings files options = .ok config) :
    run options files stdin surroundings =
      runAll ⟨surroundings.terminal⟩ options config lines := by
  cases hlines with
  | file hfile htext => simp only [run, hconfig, hfile, htext]
  | arguments hfile hgiven => simp only [run, hconfig, hfile, if_pos hgiven]
  | stdin hfile hnone hstream =>
      simp only [run, hconfig, hfile, hnone, ne_eq, not_true_eq_false,
        if_false, runStream, hstream]

theorem runWords?_of_ofWords? {words : List String}
    (h : Options.ofWords? words = some options) (stdin : ByteArray) :
    runWords? words files stdin surroundings =
      some (run options files stdin surroundings) := by
  rw [runWords?, Options.ofWords?_eq_some_iff.mp h, Option.map_some]

/-!
## One text, three ways
-/

theorem exists_intercalate_eq (text : List Char) :
    exists line rest, (forall other, other ∈ line :: rest ->
      '\n' ∉ other.toList) ∧
      String.ofList text = "\n".intercalate (line :: rest) := by
  induction text with
  | nil => exact ⟨"", [], by simp, by rw [String.intercalate_singleton]⟩
  | cons c text ih =>
      rcases ih with ⟨line, rest, hlines, htext⟩
      rw [String.ofList_cons, htext]
      by_cases hc : c = '\n'
      · refine ⟨"", line :: rest, ?_, ?_⟩
        · rw [List.forall_mem_cons]
          exact ⟨by simp, hlines⟩
        · rw [String.intercalate_cons_cons, String.empty_append, hc]
          rfl
      · refine ⟨String.singleton c ++ line, rest, ?_,
          String.intercalate_cons_append.symm⟩
        rw [List.forall_mem_cons] at hlines ⊢
        refine ⟨?_, hlines.2⟩
        simpa [Ne.symm hc] using hlines.1

/-- Every text has such lines. -/
theorem exists_isLines (text : String) : exists lines, IsLines lines text := by
  rcases exists_intercalate_eq text.toList with ⟨line, rest, hlines, htext⟩
  rw [String.ofList_toList] at htext
  exact ⟨line :: rest, List.cons_ne_nil line rest, hlines, Or.inl htext⟩

/-- A text leads to the same outcome as a file, as standard input and as
arguments, whichever configuration and options it is run with.  What is logged
is no part of an outcome. -/
theorem inputs_agree {before naming after lines : List String}
    {path text : String} (hwords : OptionWords (before ++ after) options)
    (hbefore : (Argument.ofWords? before).isSome)
    (hnaming : NamesFile naming path) (hfile : files path = .ok text.toUTF8)
    (hlines : IsLines lines text) :
    exists outcome,
      (forall stdin,
        runWords? (before ++ naming ++ after) files stdin surroundings =
          some outcome) ∧
      runWords? (before ++ after) files text.toUTF8 surroundings =
        some outcome ∧
      forall stdin,
        runWords? (before ++ after ++ "--" :: lines) files stdin surroundings =
          some outcome := by
  refine ⟨runOn surroundings options files lines, ?_, ?_, ?_⟩
  · intro stdin
    rw [runWords?_of_ofWords? (hwords.with_file hbefore hnaming),
      run_file hfile,
      runOn_congr ((nonblankLines_fileLines text).trans hlines.nonblankLines_eq)]
  · rw [runWords?_of_ofWords? hwords.read, run_stdin hwords.file hwords.lines,
      runOn_congr hlines.nonblankLines_eq]
  · intro stdin
    rw [runWords?_of_ofWords? (hwords.with_lines lines),
      run_lines hwords.file hlines.nonempty]

/-- Four lines with four kinds of ends, blanks around them and no line feed at
the end. -/
theorem inputs_agree_on_mixed_ends :
    exists outcome,
      (forall stdin, runWords? ["--echo", "--file", "sums", "--max-depth=3"]
        (fun _ => .ok " def x = 2\r\n\n\t\u2003x*3\r1\nx+\r".toUTF8) stdin
        ⟨true, fun _ => none, fun _ => ""⟩ = some outcome) ∧
      runWords? ["--echo", "--max-depth=3"]
        (fun _ => .ok " def x = 2\r\n\n\t\u2003x*3\r1\nx+\r".toUTF8)
        " def x = 2\r\n\n\t\u2003x*3\r1\nx+\r".toUTF8
        ⟨true, fun _ => none, fun _ => ""⟩ = some outcome ∧
      forall stdin, runWords?
        ["--echo", "--max-depth=3", "--", " def x = 2\r", "",
          "\t\u2003x*3\r1", "x+\r"]
        (fun _ => .ok " def x = 2\r\n\n\t\u2003x*3\r1\nx+\r".toUTF8) stdin
        ⟨true, fun _ => none, fun _ => ""⟩ = some outcome :=
  inputs_agree
    (⟨rfl, by decide, rfl, rfl⟩ : OptionWords (["--echo"] ++ ["--max-depth=3"])
      ⟨[], none, true, none, false, none, some 3, none, none, false⟩)
    rfl (⟨rfl, by decide, by decide⟩ : NamesFile ["--file", "sums"] "sums") rfl
    ⟨by decide, by decide, Or.inl (by decide)⟩

end CommandLine

end LineCalc
