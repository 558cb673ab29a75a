import LineCalc.CommandLine.Lines
import LineCalc.Proofs.Session.Diagnostics
import LineCalc.Proofs.Session.History
import LineCalc.Proofs.Text.Trimming

/-!
# Runs of lines

A run sees of its lines only what trimming leaves of them: two lists of lines
that leave the same nonblank lines lead to the same output in the same session.
No line stops a run, for all that a session refuses can be explained.
-/

namespace LineCalc

namespace CommandLine

namespace Output

@[simp] theorem empty_append (output : Output) : empty ++ output = output := by
  change append empty output = output
  simp [append, empty]

theorem append_of_not_stopped {first : Output} (h : first.stopped = false)
    (second : Output) :
    first ++ second = ⟨first.stdout ++ second.stdout,
      first.stderr ++ second.stderr, first.failed || second.failed,
      second.stopped⟩ := by
  change append first second = _
  rw [append, h]
  rfl

end Output

section Trimming

variable (palette : Palette) (options : Options) (session : Session)

theorem runLine_trimmedLine (line : String) :
    runLine palette options session (trimmedLine line) =
      runLine palette options session line := by
  have hsame : String.ofList (trimBlanks (trimmedLine line).toList) =
      trimmedLine line :=
    trimmedLine_trimmedLine line
  rw [runLine, runLine, hsame]
  rfl

theorem runLine_of_trimmedLine_eq {line : String} (h : trimmedLine line = "") :
    runLine palette options session line = (session, .empty) := by
  rw [runLine]
  exact if_pos h

theorem runLine_of_listing {line : String} (h : trimmedLine line = ":vars") :
    runLine palette options session line =
      (session,
        ⟨String.join (session.definedVariables.map variableLine), "",
          false, false⟩) := by
  have hne : trimmedLine line ≠ "" := by simp [h]
  rw [runLine]
  exact (if_neg hne).trans (if_pos h)

theorem runLine_of_text {line : String} (hblank : trimmedLine line ≠ "")
    (hlisting : trimmedLine line ≠ ":vars") :
    runLine palette options session line =
      match options.emit with
      | some emission =>
          emitLine palette options emission session (trimmedLine line)
      | none => evaluateLine palette options session (trimmedLine line) := by
  rw [runLine]
  exact (if_neg hblank).trans (if_neg hlisting)

theorem runLines_cons (line : String) (rest : List String) :
    runLines palette options session (line :: rest) =
      ((runLines palette options (runLine palette options session line).1 rest).1,
        (runLine palette options session line).2 ++
          (runLines palette options
            (runLine palette options session line).1 rest).2) := by
  rw [runLines]

theorem runLines_nonblankLines (lines : List String) :
    runLines palette options session (nonblankLines lines) =
      runLines palette options session lines := by
  induction lines generalizing session with
  | nil => rfl
  | cons line rest ih =>
      by_cases hblank : trimmedLine line = ""
      · rw [nonblankLines_cons_of_eq hblank, ih, runLines_cons,
          runLine_of_trimmedLine_eq palette options session hblank,
          Output.empty_append]
      · rw [nonblankLines_cons_of_ne hblank, runLines_cons, runLines_cons, ih,
          runLine_trimmedLine]

theorem runLines_congr {lines others : List String}
    (h : nonblankLines lines = nonblankLines others) :
    runLines palette options session lines =
      runLines palette options session others := by
  rw [← runLines_nonblankLines, h, runLines_nonblankLines]

end Trimming

/-!
## Refusals
-/

section Refusals

variable {palette : Palette} {options : Options} {session : Session}
  {config : Config}
  {environment : Environment} {line : String} {cause : EvalError}

theorem exists_explanation_eq (options : Options)
    (h : (cause.render palette line).isSome) :
    exists told, explanation palette options line cause =
      ⟨"", told, false, false⟩ := by
  rcases Option.isSome_iff_exists.mp h with ⟨text, htext⟩
  unfold explanation
  split
  · exact ⟨text, by rw [htext]⟩
  · exact ⟨"", rfl⟩

theorem exists_failure_eq (options : Options)
    (h : (cause.render palette line).isSome) :
    exists told, failure palette options line cause =
      ⟨"", told, true, false⟩ := by
  rcases exists_explanation_eq options h with ⟨told, htold⟩
  rw [failure, htold, Output.append_of_not_stopped rfl]
  exact ⟨_, rfl⟩

theorem stopped_evaluateLine (h : session.Holds config environment)
    (line : String) :
    (evaluateLine palette options session line).2.stopped = false := by
  unfold evaluateLine
  rcases hevaluate : session.evaluate line with ⟨after, cause | value⟩
  · have hrender :=
      h.isSome_render (Or.inl (congrArg Prod.snd hevaluate)) palette
    simp only
    split
    · rcases exists_explanation_eq options hrender with ⟨told, htold⟩
      rw [htold, Output.append_of_not_stopped rfl]
    · rcases exists_failure_eq options hrender with ⟨told, htold⟩
      rw [htold]
  · rfl

theorem stopped_emitLine (h : session.Holds config environment)
    (emission : Emission) (line : String) :
    (emitLine palette options emission session line).2.stopped = false := by
  unfold emitLine
  rcases hcompile : session.compile line with ⟨after, cause | compiled⟩
  · have hrender :=
      h.isSome_render (Or.inr (congrArg Prod.snd hcompile)) palette
    rcases exists_failure_eq options hrender with ⟨told, htold⟩
    simp only [htold]
  · cases emission <;> rfl

theorem fst_evaluateLine :
    (evaluateLine palette options session line).1 =
      (session.evaluate line).1 := by
  unfold evaluateLine
  rcases session.evaluate line with ⟨after, cause | value⟩
  · simp only
    split <;> rfl
  · rfl

theorem fst_emitLine {emission : Emission} :
    (emitLine palette options emission session line).1 =
      (session.compile line).1 := by
  unfold emitLine
  rcases session.compile line with ⟨after, cause | compiled⟩
  · rfl
  · cases emission <;> rfl

theorem holds_runLine (palette : Palette) (options : Options)
    (h : session.Holds config environment) (line : String) :
    exists later,
      (runLine palette options session line).1.Holds config later := by
  by_cases hblank : trimmedLine line = ""
  · rw [runLine_of_trimmedLine_eq palette options session hblank]
    exact ⟨_, h⟩
  · by_cases hlisting : trimmedLine line = ":vars"
    · rw [runLine_of_listing palette options session hlisting]
      exact ⟨_, h⟩
    · rw [runLine_of_text palette options session hblank hlisting]
      cases options.emit with
      | none =>
          simp only [fst_evaluateLine]
          exact ⟨_, h.evaluate_fst (trimmedLine line)⟩
      | some emission =>
          simp only [fst_emitLine, h.compile_fst]
          exact ⟨_, h⟩

theorem stopped_runLine (h : session.Holds config environment) (line : String) :
    (runLine palette options session line).2.stopped = false := by
  by_cases hblank : trimmedLine line = ""
  · rw [runLine_of_trimmedLine_eq palette options session hblank]
    rfl
  · by_cases hlisting : trimmedLine line = ":vars"
    · rw [runLine_of_listing palette options session hlisting]
    · rw [runLine_of_text palette options session hblank hlisting]
      cases options.emit with
      | none => exact stopped_evaluateLine h (trimmedLine line)
      | some emission => exact stopped_emitLine h emission (trimmedLine line)

theorem holds_runLines (palette : Palette) (options : Options)
    (h : session.Holds config environment) (lines : List String) :
    exists later,
      (runLines palette options session lines).1.Holds config later := by
  induction lines generalizing session environment with
  | nil => exact ⟨_, h⟩
  | cons line rest ih =>
      rcases holds_runLine palette options h line with ⟨later, hlater⟩
      simp only [runLines_cons]
      exact ih hlater

/-- No line stops a run. -/
theorem stopped_runLines (h : session.Holds config environment)
    (lines : List String) :
    (runLines palette options session lines).2.stopped = false := by
  induction lines generalizing session environment with
  | nil => rfl
  | cons line rest ih =>
      rcases holds_runLine palette options h line with ⟨later, hlater⟩
      simp only [runLines_cons,
        Output.append_of_not_stopped (stopped_runLine h line)]
      exact ih hlater

end Refusals

end CommandLine

end LineCalc
