import LineCalc.Proofs.CommandLine.Inputs
import LineCalc.Proofs.Session.Atomicity
import LineCalc.Proofs.Session.Diagnostics

/-!
# Runs with lines that are refused

A line that is refused shows in the exit code and on standard error only.  It
leaves the session as it was, so the run without the refused lines prints the
same, listings of the variables included.
-/

namespace LineCalc

namespace CommandLine

/-!
## Scripts
-/

/-- The text that a line puts to its session.  Blank lines and requests for the
variables put none. -/
def evaluated? (line : String) : Option String :=
  if trimmedLine line = "" ∨ trimmedLine line = ":vars" then
    none
  else
    some (trimmedLine line)

def refuses (session : Session) (line : String) : Bool :=
  match evaluated? line with
  | none => false
  | some text => !(session.evaluate text).2.isOk

def sessionAfter (session : Session) (line : String) : Session :=
  match evaluated? line with
  | none => session
  | some text => (session.evaluate text).1

/-- The lines of a script, and whether each is refused when its turn comes. -/
def judged (session : Session) : List String -> List (String × Bool)
  | [] => []
  | line :: rest =>
      (line, refuses session line) :: judged (sessionAfter session line) rest

/-- The lines of a script without the refused ones. -/
def accepted (session : Session) (lines : List String) : List String :=
  ((judged session lines).filter fun entry => !entry.2).map Prod.fst

variable {palette : Palette} {options : Options} {session : Session}
  {config : Config} {environment : Environment} {line text : String}

theorem evaluated?_eq_none_iff :
    evaluated? line = none <-> trimmedLine line = "" ∨
      trimmedLine line = ":vars" := by
  unfold evaluated?
  split <;> simp_all

theorem evaluated?_eq_some_iff :
    evaluated? line = some text <->
      trimmedLine line = text ∧ trimmedLine line ≠ "" ∧
      trimmedLine line ≠ ":vars" := by
  rw [evaluated?, Option.ite_none_left_eq_some, not_or,
    Option.some.injEq, and_comm]

theorem accepted_cons_of_refuses (h : refuses session line = true)
    (rest : List String) :
    accepted session (line :: rest) =
      accepted (sessionAfter session line) rest := by
  simp [accepted, judged, h]

theorem accepted_cons_of_not_refuses (h : refuses session line = false)
    (rest : List String) :
    accepted session (line :: rest) =
      line :: accepted (sessionAfter session line) rest := by
  simp [accepted, judged, h]

/-!
## Single lines
-/

theorem holds_sessionAfter (h : session.Holds config environment)
    (line : String) :
    exists later, (sessionAfter session line).Holds config later := by
  unfold sessionAfter
  cases evaluated? line with
  | none => exact ⟨_, h⟩
  | some text => exact ⟨_, h.evaluate_fst text⟩

theorem evaluate_of_refuses (h : session.Holds config environment)
    (hrefuses : refuses session line = true) :
    sessionAfter session line = session ∧
      exists text cause, evaluated? line = some text ∧
        session.evaluate text = (session, .error cause) := by
  unfold refuses at hrefuses
  unfold sessionAfter
  cases htext : evaluated? line with
  | none =>
      rw [htext] at hrefuses
      cases hrefuses
  | some text =>
      simp only [htext, Bool.not_eq_true'] at hrefuses
      have hsame := h.evaluate_of_not_ok hrefuses
      refine ⟨hsame, text, ?_⟩
      rcases hevaluate : session.evaluate text with ⟨after, cause | value⟩
      · rw [hevaluate] at hsame
        exact ⟨cause, rfl, by rw [← hsame]⟩
      · rw [hevaluate] at hrefuses
        cases hrefuses

theorem runLine_of_evaluated (hemit : options.emit = none)
    (htext : evaluated? line = some text) :
    runLine palette options session line =
      evaluateLine palette options session text := by
  rcases evaluated?_eq_some_iff.mp htext with ⟨rfl, hblank, hlisting⟩
  rw [runLine_of_text palette options session hblank hlisting, hemit]

theorem exists_runLine_of_refuses (h : session.Holds config environment)
    (hemit : options.emit = none) (hecho : options.echo = false)
    (hrefuses : refuses session line = true) :
    exists told, runLine palette options session line =
      (session, ⟨"", told, true, false⟩) := by
  rcases evaluate_of_refuses h hrefuses with ⟨_, text, cause, htext, hevaluate⟩
  have hrender := h.isSome_render (Or.inl (congrArg Prod.snd hevaluate)) palette
  rcases exists_failure_eq options hrender with ⟨told, htold⟩
  rw [runLine_of_evaluated hemit htext]
  simp only [evaluateLine, hevaluate, hecho, Bool.false_eq_true,
    if_false, htold]
  exact ⟨told, rfl⟩

theorem exists_runLine_of_not_refuses
    (hrefuses : refuses session line = false) :
    exists printed, forall (palette : Palette) (options : Options),
      options.emit = none ->
      options.echo = false -> runLine palette options session line =
        (sessionAfter session line, ⟨printed, "", false, false⟩) := by
  unfold refuses at hrefuses
  unfold sessionAfter
  cases htext : evaluated? line with
  | none =>
      rcases evaluated?_eq_none_iff.mp htext with hblank | hlisting
      · refine ⟨"", ?_⟩
        intro palette options _ _
        rw [runLine_of_trimmedLine_eq palette options session hblank]
        rfl
      · refine ⟨String.join (session.definedVariables.map variableLine), ?_⟩
        intro palette options _ _
        rw [runLine_of_listing palette options session hlisting]
  | some text =>
      simp only [htext, Bool.not_eq_false'] at hrefuses
      rcases hevaluate : session.evaluate text with ⟨after, cause | value⟩
      · rw [hevaluate] at hrefuses
        cases hrefuses
      · refine ⟨value.resultText ++ "\n", ?_⟩
        intro palette options hemit hecho
        rw [runLine_of_evaluated hemit htext]
        simp [evaluateLine, hevaluate, hecho, Output.print]

/-!
## Runs
-/

theorem runLines_accepted (palette otherPalette : Palette) {others : Options}
    (lines : List String)
    (h : session.Holds config environment) (hemit : options.emit = none)
    (hecho : options.echo = false) (hotherEmit : others.emit = none)
    (hotherEcho : others.echo = false) :
    (runLines palette options session lines).2.failed =
        (judged session lines).any Prod.snd ∧
      (runLines otherPalette others session (accepted session lines)).2 =
        ⟨(runLines palette options session lines).2.stdout, "",
          false, false⟩ := by
  induction lines generalizing session environment with
  | nil => exact ⟨rfl, rfl⟩
  | cons line rest ih =>
      rcases holds_sessionAfter h line with ⟨later, hlater⟩
      rcases ih hlater with ⟨hfailed, hprinted⟩
      rw [runLines_cons, judged, List.any_cons]
      cases hrefuses : refuses session line with
      | true =>
          rcases exists_runLine_of_refuses h hemit hecho hrefuses with
            ⟨told, hline⟩
          rw [(evaluate_of_refuses h hrefuses).left] at hprinted
          rw [accepted_cons_of_refuses hrefuses,
            (evaluate_of_refuses h hrefuses).left, hline, hprinted,
            Output.append_of_not_stopped rfl]
          exact ⟨rfl, by rw [String.empty_append]⟩
      | false =>
          rcases exists_runLine_of_not_refuses hrefuses with ⟨printed, hline⟩
          rw [accepted_cons_of_not_refuses hrefuses, runLines_cons,
            hline palette options hemit hecho,
            hline otherPalette others hotherEmit hotherEcho]
          simp only [hprinted, Output.append_of_not_stopped,
            String.empty_append, Bool.false_or, and_true]
          exact hfailed

/-- If lines are neither echoed nor emitted, the exit code tells whether one of
them is refused, and the run without the refused ones prints the same and
succeeds.  Where the two runs take their lines from makes no difference.  No
refusal stops a run, for each of them can be explained.  What is logged is no
part of an outcome. -/
theorem run_without_refused_lines {files : FileSystem} {stdin : ByteArray}
    {surroundings : Surroundings} {lines : List String}
    (hemit : options.emit = none) (hecho : options.echo = false)
    (hconfig : loadConfig surroundings files options = .ok config)
    (hlines : TakesLines options files stdin lines) :
    (run options files stdin surroundings).code =
        (if (judged (.new config) lines).any Prod.snd then 1 else 0) ∧
      (forall (palette other : Palette) before text cause,
        ((runLines palette options (.new config) before).1.evaluate text).2 =
          .error cause ->
        (cause.render other text).isSome) ∧
      forall (others : Options) otherFiles otherStdin otherSurroundings,
        others.emit = none -> others.echo = false ->
        loadConfig otherSurroundings otherFiles others = .ok config ->
        TakesLines others otherFiles otherStdin
          (accepted (.new config) lines) ->
        run others otherFiles otherStdin otherSurroundings =
          ⟨0, (run options files stdin surroundings).stdout, ""⟩ := by
  have hnew := Session.Holds.new config
  rw [run_of_takesLines hlines hconfig]
  refine ⟨?_, ?_, ?_⟩
  · rw [runAll, Outcome.ofOutput, stopped_runLines hnew,
      (runLines_accepted _ ⟨false⟩ lines hnew hemit hecho hemit hecho).left]
    rfl
  · intro palette other before text cause hrefused
    rcases holds_runLines palette options hnew before with ⟨environment, h⟩
    exact h.isSome_render (Or.inl hrefused) other
  · intro others otherFiles otherStdin otherSurroundings hotherEmit
      hotherEcho hotherConfig
      hotherLines
    have hprinted := (runLines_accepted ⟨surroundings.terminal⟩
      ⟨otherSurroundings.terminal⟩ lines hnew hemit hecho hotherEmit
        hotherEcho).right
    rw [run_of_takesLines hotherLines hotherConfig, runAll, hprinted]
    rfl

/-- A definition that is refused between two that are not, and a listing. -/
theorem run_without_refused_definition :
    let options : Options :=
      ⟨["def x = 2", "y + 1", " ", "def y = (x", ":vars", "def y = x * 3"],
        none, false, none, true, none, none, none, none, false⟩
    let others : Options :=
      { options with lines := ["def x = 2", " ", ":vars", "def y = x * 3"] }
    let files : FileSystem := fun _ => .error ⟨"No such file or directory", 2⟩
    (run options files .empty .plain).code = 1 ∧
      run others files .empty .plain =
        ⟨0, (run options files .empty .plain).stdout, ""⟩ := by
  intro options others files
  have h :=
    @run_without_refused_lines options .standard files .empty .plain _ rfl rfl rfl
      (.arguments rfl (by simp [options]))
  have hjudged : judged (.new .standard) options.lines =
      [("def x = 2", false), ("y + 1", true), (" ", false),
        ("def y = (x", true), (":vars", false), ("def y = x * 3", false)] := by
    decide +kernel
  have haccepted : accepted (.new .standard) options.lines = others.lines := by
    rw [accepted, hjudged]
    rfl
  have hlines : TakesLines others files .empty others.lines :=
    .arguments rfl (by simp [others])
  rw [hjudged, haccepted] at h
  exact ⟨h.left, h.right.right others files .empty .plain rfl rfl rfl hlines⟩

end CommandLine

end LineCalc
