import LineCalc.Proofs.CommandLine.Inputs
import LineCalc.Proofs.Session.Diagnostics
import LineCalc.Proofs.Session.History

/-!
# Runs that emit programs

Where programs are printed instead of run, no line changes the session.  So
every line is answered as if it stood alone, in a session in which nothing is
defined, and the answer to several lines is put together from the answers to
each.
-/

namespace LineCalc

namespace CommandLine

def Outcome.joined (outcomes : List Outcome) : Outcome where
  code := if outcomes.any fun outcome => outcome.code = 1 then 1 else 0
  stdout := String.join (outcomes.map Outcome.stdout)
  stderr := String.join (outcomes.map Outcome.stderr)

variable {palette : Palette} {options : Options} {emission : Emission}
  {session : Session} {config : Config} {environment : Environment}

/-!
## Lines that are emitted
-/

theorem runLine_of_emit (hemit : options.emit = some emission)
    (h : session.Holds config environment) (line : String) :
    (runLine palette options session line).1 = session := by
  by_cases hblank : trimmedLine line = ""
  · rw [runLine_of_trimmedLine_eq palette options session hblank]
  · by_cases hlisting : trimmedLine line = ":vars"
    · rw [runLine_of_listing palette options session hlisting]
    · rw [runLine_of_text palette options session hblank hlisting, hemit]
      simp only [fst_emitLine, h.compile_fst]

theorem runLines_of_emit (hemit : options.emit = some emission)
    (h : session.Holds config environment) (lines : List String) :
    runLines palette options session lines =
      (session,
        ⟨String.join (lines.map fun line =>
          (runLine palette options session line).2.stdout),
          String.join (lines.map fun line =>
            (runLine palette options session line).2.stderr),
          lines.any fun line => (runLine palette options session line).2.failed,
          false⟩) := by
  induction lines with
  | nil => rfl
  | cons line rest ih =>
      rw [runLines_cons, runLine_of_emit hemit h, ih,
        Output.append_of_not_stopped (stopped_runLine h line)]
      simp only [List.map_cons, String.join_cons, List.any_cons]

theorem runAll_of_emit (hemit : options.emit = some emission) (config : Config)
    (lines : List String) :
    runAll palette options config lines =
      Outcome.joined (lines.map fun line =>
        runAll palette options config [line]) := by
  have hlines :=
    @runLines_of_emit palette _ _ _ _ _ hemit (Session.Holds.new config)
  have hone : forall output : Output,
      (decide ((if output.failed then 1 else 0) = 1)) = output.failed := by
    intro output
    cases output.failed <;> rfl
  simp only [runAll, Outcome.ofOutput, hlines, Outcome.joined, List.map_map,
    List.any_map, Function.comp_def, List.map_cons, List.map_nil, List.any_cons,
    List.any_nil, Bool.or_false, String.join_cons, String.join_nil,
    String.append_empty, Bool.false_eq_true, if_false, hone]

theorem runLine_of_emit_of_name (hemit : options.emit = some emission)
    {line name : String} (hlisting : trimmedLine line ≠ ":vars")
    (hname : .name name ∈
      Token.expressionPart (TokenStream.scan (trimmedLine line)).lineTokens) :
    (runLine palette options (.new config) line).2.failed = true := by
  have hblank : trimmedLine line ≠ "" := by
    intro hblank
    have hempty : Token.expressionPart (TokenStream.scan "").lineTokens =
        [] := by
      decide +kernel
    rw [hblank, hempty] at hname
    cases hname
  have hnew := Session.Holds.new config
  have hrefused : exists cause,
      (Session.new config).compile (trimmedLine line) =
        (.new config, .error cause) := by
    cases hnew.outcome (trimmedLine line) with
    | unparsed _ _ hcompile => exact ⟨_, hcompile⟩
    | tooLarge _ _ _ hcompile => exact ⟨_, hcompile⟩
    | runs hparse _ _ _ _ _ =>
        have hbound := (Machine.accepts_of_parse hparse).bound name hname
        simp [Session.new, SymbolTable.empty, SymbolTable.lookup?] at hbound
  rcases hrefused with ⟨cause, hcompile⟩
  rw [runLine_of_text palette options _ hblank hlisting, hemit]
  simp only [emitLine, hcompile, failure]
  rw [Output.append_of_not_stopped rfl]
  rfl

/-!
## Runs
-/

/-- Emitted lines do not influence each other.  Their answers are those to each
line alone, in another order if the lines are, and no line finds a name defined
by another.  No refusal stops a run, for each of them can be explained.  What is
logged is no part of an outcome. -/
theorem run_emitting {files : FileSystem} {stdin : ByteArray}
    {surroundings : Surroundings} {lines : List String}
    (hemit : options.emit = some emission)
    (hconfig : loadConfig surroundings files options = .ok config)
    (hlines : TakesLines options files stdin lines) :
    let alone (line : String) : Outcome :=
      run { options with file := none, lines := [line] } files .empty
        surroundings
    run options files stdin surroundings = Outcome.joined (lines.map alone) ∧
      (forall (file : Option String) (given others : List String) otherStdin,
        TakesLines { options with file := file, lines := given } files
          otherStdin others ->
        others.Perm lines ->
        exists blocks, blocks.Perm (lines.map alone) ∧
          run { options with file := file, lines := given } files otherStdin
              surroundings =
            Outcome.joined blocks) ∧
      (forall (palette : Palette) before name,
        (runLines palette options (.new config) before).1.lookup? name = none) ∧
      (forall (palette other : Palette) before text cause,
        ((runLines palette options (.new config) before).1.compile text).2 =
          .error cause ->
        (cause.render other text).isSome) ∧
      forall line name, trimmedLine line ≠ ":vars" ->
        .name name ∈ Token.expressionPart
          (TokenStream.scan (trimmedLine line)).lineTokens ->
        (alone line).code = 1 := by
  intro alone
  have hnew := Session.Holds.new config
  have hrun (file : Option String) (given others : List String)
      (otherStdin : ByteArray)
      (hothers : TakesLines { options with file := file, lines := given } files
        otherStdin others) :
      run { options with file := file, lines := given } files otherStdin
          surroundings =
        runAll ⟨surroundings.terminal⟩ options config others := by
    rw [run_of_takesLines hothers hconfig]
    simp only [runAll, runLines_with_source]
  have halone : alone = fun line =>
      runAll ⟨surroundings.terminal⟩ options config [line] := by
    funext line
    exact hrun none [line] [line] .empty
      (.arguments rfl (List.cons_ne_nil line []))
  refine ⟨?_, ?_, ?_, ?_, ?_⟩
  · rw [run_of_takesLines hlines hconfig, runAll_of_emit hemit, halone]
  · intro file given others otherStdin hothers hperm
    refine ⟨others.map alone, hperm.map alone, ?_⟩
    rw [hrun file given others otherStdin hothers, runAll_of_emit hemit, halone]
  · intro palette before name
    rw [runLines_of_emit hemit hnew]
    rfl
  · intro palette other before text cause hrefused
    rw [runLines_of_emit hemit hnew] at hrefused
    exact hnew.isSome_render (Or.inr hrefused) other
  · intro line name hlisting hname
    simp only [halone, runAll, Outcome.ofOutput, runLines_of_emit hemit hnew,
      List.any_cons, List.any_nil, Bool.or_false,
      runLine_of_emit_of_name hemit hlisting hname, if_true,
      Bool.false_eq_true, if_false]

/-- A definition, a use of what it defines and a listing. -/
theorem run_emitting_use_of_definition :
    let options : Options :=
      ⟨["def x = 2", "x + 1", ":vars"], none, false, some .bytecode, true, none,
        none, none, none, false⟩
    let files : FileSystem := fun _ => .error ⟨"No such file or directory", 2⟩
    let alone (line : String) : Outcome :=
      run { options with file := none, lines := [line] } files .empty .plain
    run options files .empty .plain =
        Outcome.joined [alone "def x = 2", alone "x + 1", alone ":vars"] ∧
      (alone "x + 1").code = 1 := by
  intro options files alone
  have h :=
    @run_emitting options .bytecode .standard files .empty .plain _ rfl rfl
      (.arguments rfl (by simp [options]))
  rcases h with ⟨hjoined, _, _, _, huses⟩
  exact ⟨hjoined, huses "x + 1" "x" (by decide +kernel) (by decide +kernel)⟩

end CommandLine

end LineCalc
