import LineCalc.CommandLine.Arguments

/-!
# Words and options

The words of a command line are read from the front, so those in front of others
stand for the same arguments as alone.  Options depend on the arguments of each
kind only.
-/

namespace LineCalc

namespace CommandLine

/-!
## Words
-/

namespace WordMeaning

theorem ofLong?_ne_separator (text : List Char) :
    ofLong? text ≠ some separator := by
  rw [ofLong?]
  split
  · split
    · simp
    · split
      · simp
      · cases Setting.ofName? (String.ofList (text.takeWhile (· ≠ '='))) <;>
          simp
  · cases Setting.ofName? (String.ofList (text.takeWhile (· ≠ '='))) <;> simp

theorem ofLetters?_ne_separator (letters : List Char) :
    ofLetters? letters ≠ some separator := by
  fun_cases ofLetters? letters <;> simp

theorem eq_of_ofString?_eq_separator {word : String}
    (h : ofString? word = some separator) :
    word = "--" := by
  rw [ofString?] at h
  split at h
  · rename_i hword
    rw [← String.ofList_toList (s := word), hword]
  · exact absurd h (ofLong?_ne_separator _)
  · exact absurd h (ofLetters?_ne_separator _)
  · cases h

end WordMeaning

/-!
## Questions
-/

namespace Options

theorem questionsOf_append (first second : List Argument) :
    questionsOf (first ++ second) = questionsOf first ++ questionsOf second :=
  List.filterMap_append

theorem questionsOf_map_line (lines : List String) :
    questionsOf (lines.map .line) = [] := by
  simp [questionsOf]

end Options

namespace Argument

variable {word value : String} {arguments : List Argument} {name : Setting}

theorem ofWords?_cons_of_complete
    (h : WordMeaning.ofString? word = some (.complete arguments))
    (rest : List String) :
    ofWords? (word :: rest) = (ofWords? rest).map (arguments ++ ·) := by
  rw [ofWords?.eq_def]
  simp only [h]

theorem ofWords?_cons_of_awaiting
    (h : WordMeaning.ofString? word = some (.awaiting arguments name))
    (hvalue : isValue value = true) (rest : List String) :
    ofWords? (word :: value :: rest) =
      (ofWords? rest).map (arguments ++ .setting name value :: ·) := by
  rw [ofWords?.eq_def]
  simp only [h, hvalue, if_true]

theorem ofWords?_cons_of_asking {question : Question}
    (h : WordMeaning.ofString? word = some (.asking arguments question))
    (rest : List String) :
    ofWords? (word :: rest) = some (arguments ++ [.ask question]) := by
  rw [ofWords?.eq_def]
  simp only [h]

theorem ofWords?_separator (lines : List String) :
    ofWords? ("--" :: lines) = some (lines.map .line) :=
  rfl

/-- Words that are understood alone stand for the same in front of others,
unless they ask a question. -/
theorem ofWords?_append {words : List String} (hseparator : "--" ∉ words)
    (h : ofWords? words = some arguments)
    (hquestions : Options.questionsOf arguments = []) (rest : List String) :
    ofWords? (words ++ rest) = (ofWords? rest).map (arguments ++ ·) := by
  induction words using ofWords?.induct generalizing arguments with
  | case1 =>
      cases h
      simp
  | case2 word words hword =>
      rw [ofWords?.eq_def] at h
      simp only [hword] at h
      cases h
  | case3 word words hword =>
      rw [WordMeaning.eq_of_ofString?_eq_separator hword] at hseparator
      exact absurd List.mem_cons_self hseparator
  | case4 word words read question hword =>
      rw [ofWords?_cons_of_asking hword] at h
      cases h
      rw [Options.questionsOf_append, List.append_eq_nil_iff] at hquestions
      cases hquestions.right
  | case5 word words read hword ih =>
      rw [ofWords?_cons_of_complete hword] at h
      rcases Option.map_eq_some_iff.mp h with ⟨others, hothers, rfl⟩
      rw [Options.questionsOf_append, List.append_eq_nil_iff] at hquestions
      have hrest :=
        ih (fun hmem => hseparator (List.mem_cons_of_mem word hmem)) hothers
          hquestions.right
      rw [List.cons_append, ofWords?_cons_of_complete hword, hrest]
      cases ofWords? rest <;> simp
  | case6 word read name hword =>
      rw [ofWords?.eq_def] at h
      simp only [hword] at h
      cases h
  | case7 word read name hword value words hvalue ih =>
      rw [ofWords?_cons_of_awaiting hword hvalue] at h
      rcases Option.map_eq_some_iff.mp h with ⟨others, hothers, rfl⟩
      rw [Options.questionsOf_append, List.append_eq_nil_iff] at hquestions
      have hrest := ih
        (fun hmem =>
          hseparator (List.mem_cons_of_mem word (List.mem_cons_of_mem value hmem)))
        hothers hquestions.right
      rw [List.cons_append, List.cons_append,
        ofWords?_cons_of_awaiting hword hvalue, hrest]
      cases ofWords? rest <;> simp
  | case8 word read name hword value words hvalue =>
      rw [ofWords?.eq_def] at h
      simp only [hword, if_neg hvalue] at h
      cases h

theorem questionsOf_eq_nil_of_append {words rest : List String}
    {all : List Argument} (h : ofWords? words = some arguments)
    (hall : ofWords? (words ++ rest) = some all)
    (hquestions : Options.questionsOf all = []) :
    Options.questionsOf arguments = [] := by
  induction words using ofWords?.induct generalizing arguments all with
  | case1 =>
      cases h
      rfl
  | case2 word words hword =>
      rw [ofWords?.eq_def] at h
      simp only [hword] at h
      cases h
  | case3 word words hword =>
      rw [WordMeaning.eq_of_ofString?_eq_separator hword,
        ofWords?_separator] at h
      cases h
      exact Options.questionsOf_map_line words
  | case4 word words read question hword =>
      rw [List.cons_append, ofWords?_cons_of_asking hword,
        ← ofWords?_cons_of_asking hword words, h] at hall
      cases hall
      exact hquestions
  | case5 word words read hword ih =>
      rw [ofWords?_cons_of_complete hword] at h
      rw [List.cons_append, ofWords?_cons_of_complete hword] at hall
      rcases Option.map_eq_some_iff.mp h with ⟨others, hothers, rfl⟩
      rcases Option.map_eq_some_iff.mp hall with ⟨behind, hbehind, rfl⟩
      rw [Options.questionsOf_append, List.append_eq_nil_iff] at hquestions ⊢
      exact ⟨hquestions.left, ih hothers hbehind hquestions.right⟩
  | case6 word read name hword =>
      rw [ofWords?.eq_def] at h
      simp only [hword] at h
      cases h
  | case7 word read name hword value words hvalue ih =>
      rw [ofWords?_cons_of_awaiting hword hvalue] at h
      rw [List.cons_append, List.cons_append,
        ofWords?_cons_of_awaiting hword hvalue] at hall
      rcases Option.map_eq_some_iff.mp h with ⟨others, hothers, rfl⟩
      rcases Option.map_eq_some_iff.mp hall with ⟨behind, hbehind, rfl⟩
      rw [Options.questionsOf_append, List.append_eq_nil_iff] at hquestions ⊢
      have hunasked := ih hothers hbehind hquestions.right
      exact ⟨hquestions.left, hunasked⟩
  | case8 word read name hword value words hvalue =>
      rw [ofWords?.eq_def] at h
      simp only [hword, if_neg hvalue] at h
      cases h

end Argument

/-!
## Options
-/

namespace Options

section Values

def valuesOf (name : Setting) (arguments : List Argument) : List String :=
  arguments.filterMap fun
    | .setting other value => if other = name then some value else none
    | _ => none

variable {α : Type} {read? : String -> Option α}
  {first middle second : List Argument}

theorem setting?_eq (arguments : List Argument) (name : Setting) :
    setting? arguments name read? =
      match valuesOf name arguments with
      | [] => some none
      | [value] => (read? value).map some
      | _ => none :=
  rfl

theorem valuesOf_eq_nil_of_setting? {arguments : List Argument} {name : Setting}
    (h : setting? arguments name read? = some none) :
    valuesOf name arguments = [] := by
  rw [setting?_eq] at h
  split at h
  · assumption
  · rename_i value _
    cases hvalue : read? value <;> rw [hvalue] at h <;> cases h
  · cases h

theorem valuesOf_append (name : Setting) (first second : List Argument) :
    valuesOf name (first ++ second) =
      valuesOf name first ++ valuesOf name second :=
  List.filterMap_append

theorem valuesOf_eq_nil {name : Setting}
    (h : forall value, .setting name value ∉ middle) :
    valuesOf name middle = [] := by
  apply List.filterMap_eq_nil_iff.mpr
  intro argument hargument
  cases argument with
  | setting other value =>
      apply if_neg
      rintro rfl
      exact h value hargument
  | _ => rfl

theorem setting?_append_append {name : Setting}
    (h : forall value, .setting name value ∉ middle) :
    setting? (first ++ middle ++ second) name read? =
      setting? (first ++ second) name read? := by
  rw [setting?_eq, setting?_eq, valuesOf_append, valuesOf_append,
    valuesOf_append, valuesOf_eq_nil h, List.append_nil]

theorem setting?_of_once {name : Setting} (value : String)
    (h : setting? (first ++ second) name read? = some none) :
    setting? (first ++ [.setting name value] ++ second) name read? =
      (read? value).map some := by
  have hothers := valuesOf_eq_nil_of_setting? h
  rw [valuesOf_append, List.append_eq_nil_iff] at hothers
  have hvalue : valuesOf name [.setting name value] = [value] := by
    simp [valuesOf]
  rw [setting?_eq, valuesOf_append, valuesOf_append, hothers.1,
    hothers.2, hvalue]
  rfl

theorem flag?_append_append {name : Flag} (h : .flag name ∉ middle) :
    flag? (first ++ middle ++ second) name = flag? (first ++ second) name := by
  rw [flag?, flag?, List.count_append, List.count_append, List.count_append,
    List.count_eq_zero.mpr h, Nat.add_zero]

theorem setting?_append_lines (arguments : List Argument) (lines : List String)
    (name : Setting) :
    setting? (arguments ++ lines.map .line) name read? =
      setting? arguments name read? := by
  rw [← List.append_nil (arguments ++ lines.map Argument.line),
    setting?_append_append (by simp), List.append_nil]

theorem flag?_append_lines (arguments : List Argument) (lines : List String)
    (name : Flag) :
    flag? (arguments ++ lines.map .line) name = flag? arguments name := by
  rw [← List.append_nil (arguments ++ lines.map Argument.line),
    flag?_append_append (by simp), List.append_nil]

theorem linesOf_append (first second : List Argument) :
    linesOf (first ++ second) = linesOf first ++ linesOf second :=
  List.filterMap_append

theorem linesOf_map_line (lines : List String) :
    linesOf (lines.map .line) = lines := by
  induction lines with
  | nil => rfl
  | cons line rest ih => exact congrArg (line :: ·) ih

end Values

structure Reads (options : Options) (arguments : List Argument) : Prop where
  lines : options.lines = linesOf arguments
  file : setting? arguments .file path? = some options.file
  echo : flag? arguments .echo = some options.echo
  emit : setting? arguments .emit emission? = some options.emit
  explain : flag? arguments .explain = some options.explain
  config : setting? arguments .config path? = some options.config
  maxDepth : setting? arguments .maxDepth natural? = some options.maxDepth
  heapBase : setting? arguments .heapBase natural? = some options.heapBase
  stackTop : setting? arguments .stackTop natural? = some options.stackTop
  verbose : flag? arguments .verbose = some options.verbose

theorem ofArguments?_eq_some_iff {arguments : List Argument}
    {options : Options} :
    ofArguments? arguments = some options <-> options.Reads arguments := by
  simp only [ofArguments?, bind, Option.bind_eq_some_iff, pure,
    Option.some.injEq]
  constructor
  · rintro ⟨file, hfile, echo, hecho, emit, hemit, explain, hexplain,
      config, hconfig, maxDepth, hmaxDepth, heapBase, hheapBase, stackTop,
      hstackTop, verbose, hverbose, rfl⟩
    exact ⟨rfl, hfile, hecho, hemit, hexplain, hconfig, hmaxDepth,
      hheapBase, hstackTop, hverbose⟩
  · intro h
    exact ⟨_, h.file, _, h.echo, _, h.emit, _, h.explain, _, h.config, _,
      h.maxDepth, _, h.heapBase, _, h.stackTop, _, h.verbose, by rw [← h.lines]⟩

/-- What options that can be run with are read from. -/
structure ReadFrom (options : Options) (arguments : List Argument) : Prop
    extends Reads options arguments where
  unasked : questionsOf arguments = []
  consistent : ¬ (options.file.isSome ∧ options.lines ≠ [])

theorem ofWords?_eq_some_iff {words : List String} {options : Options} :
    ofWords? words = some options <->
      Request.ofWords? words = some (.perform options) := by
  unfold ofWords?
  split
  · rename_i read hread
    rw [hread, Option.some.injEq, Option.some.injEq, Request.perform.injEq]
  · rename_i hother
    exact ⟨nofun, fun h => absurd h (hother options)⟩

theorem exists_readFrom_iff {words : List String} {options : Options} :
    ofWords? words = some options <->
      exists arguments, Argument.ofWords? words = some arguments ∧
        options.ReadFrom arguments := by
  rw [ofWords?_eq_some_iff]
  simp only [Request.ofWords?, bind, Option.bind_eq_some_iff,
    ofArguments?_eq_some_iff]
  constructor
  · rintro ⟨arguments, hwords, read, hread, hrequest⟩
    split at hrequest
    · cases hrequest
    · rename_i hunasked
      split at hrequest
      · cases hrequest
      · rename_i hconsistent
        cases hrequest
        exact ⟨arguments, hwords, hread, hunasked, hconsistent⟩
  · rintro ⟨arguments, hwords, h⟩
    refine ⟨arguments, hwords, options, h.toReads, ?_⟩
    rw [h.unasked]
    exact if_neg h.consistent

namespace ReadFrom

variable {options : Options} {first second : List Argument}

theorem with_file (h : options.ReadFrom (first ++ second))
    (hfile : options.file = none) (hlines : options.lines = []) {path : String}
    (hpath : path ≠ "") :
    ReadFrom { options with file := some path }
      (first ++ [.setting .file path] ++ second) where
  lines := by
    rw [linesOf_append, linesOf_append]
    exact (h.lines.trans (linesOf_append _ _)).trans (by simp [linesOf])
  file := by
    have hnone := h.file
    rw [hfile] at hnone
    rw [setting?_of_once path hnone, path?, if_neg hpath]
    rfl
  echo := (flag?_append_append (by simp)).trans h.echo
  emit := (setting?_append_append (by simp)).trans h.emit
  explain := (flag?_append_append (by simp)).trans h.explain
  config := (setting?_append_append (by simp)).trans h.config
  maxDepth := (setting?_append_append (by simp)).trans h.maxDepth
  heapBase := (setting?_append_append (by simp)).trans h.heapBase
  stackTop := (setting?_append_append (by simp)).trans h.stackTop
  verbose := (flag?_append_append (by simp)).trans h.verbose
  unasked := by
    have hunasked := h.unasked
    have hnone : questionsOf [.setting .file path] = [] := rfl
    rw [questionsOf_append] at hunasked
    rw [questionsOf_append, questionsOf_append, hnone, List.append_nil]
    exact hunasked
  consistent := fun hboth => hboth.2 hlines

theorem with_lines {arguments : List Argument} (h : options.ReadFrom arguments)
    (hfile : options.file = none) (hlines : options.lines = [])
    (lines : List String) :
    ReadFrom { options with lines := lines }
      (arguments ++ lines.map .line) where
  lines := by
    rw [linesOf_append, ← h.lines, hlines, linesOf_map_line]
    rfl
  file := (setting?_append_lines _ _ _).trans h.file
  echo := (flag?_append_lines _ _ _).trans h.echo
  emit := (setting?_append_lines _ _ _).trans h.emit
  explain := (flag?_append_lines _ _ _).trans h.explain
  config := (setting?_append_lines _ _ _).trans h.config
  maxDepth := (setting?_append_lines _ _ _).trans h.maxDepth
  heapBase := (setting?_append_lines _ _ _).trans h.heapBase
  stackTop := (setting?_append_lines _ _ _).trans h.stackTop
  verbose := (flag?_append_lines _ _ _).trans h.verbose
  unasked := by
    rw [questionsOf_append, h.unasked, questionsOf_map_line, List.append_nil]
  consistent := by
    rw [hfile]
    rintro ⟨hsome, _⟩
    cases hsome

end ReadFrom

end Options

structure OptionWords (words : List String) (options : Options) : Prop where
  read : Options.ofWords? words = some options
  unseparated : "--" ∉ words
  file : options.file = none
  lines : options.lines = []

structure NamesFile (words : List String) (path : String) : Prop where
  read : Argument.ofWords? words = some [.setting .file path]
  unseparated : "--" ∉ words
  path : path ≠ ""

namespace OptionWords

variable {words before after naming : List String} {options : Options}

theorem with_file (h : OptionWords (before ++ after) options)
    (hbefore : (Argument.ofWords? before).isSome) {path : String}
    (hnaming : NamesFile naming path) :
    Options.ofWords? (before ++ naming ++ after) =
      some { options with file := some path } := by
  rcases Option.isSome_iff_exists.mp hbefore with ⟨first, hfirst⟩
  have hseparator : "--" ∉ before :=
    fun hmem => h.unseparated (List.mem_append_left after hmem)
  rcases Options.exists_readFrom_iff.mp h.read with
    ⟨arguments, harguments, hread⟩
  have hunasked :=
    Argument.questionsOf_eq_nil_of_append hfirst harguments hread.unasked
  rw [Argument.ofWords?_append hseparator hfirst hunasked] at harguments
  rcases Option.map_eq_some_iff.mp harguments with ⟨second, hsecond, rfl⟩
  apply Options.exists_readFrom_iff.mpr
  refine ⟨_, ?_, hread.with_file h.file h.lines hnaming.path⟩
  rw [List.append_assoc, Argument.ofWords?_append hseparator hfirst hunasked,
    Argument.ofWords?_append hnaming.unseparated hnaming.read rfl, hsecond]
  simp

theorem with_lines (h : OptionWords words options) (lines : List String) :
    Options.ofWords? (words ++ "--" :: lines) =
      some { options with lines := lines } := by
  rcases Options.exists_readFrom_iff.mp h.read with
    ⟨arguments, harguments, hread⟩
  apply Options.exists_readFrom_iff.mpr
  refine ⟨_, ?_, hread.with_lines h.file h.lines lines⟩
  rw [Argument.ofWords?_append h.unseparated harguments hread.unasked,
    Argument.ofWords?_separator]
  rfl

end OptionWords

end CommandLine

end LineCalc
