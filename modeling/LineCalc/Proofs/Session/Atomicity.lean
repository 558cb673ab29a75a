import LineCalc.Proofs.Session.History

/-!
# Lines that fail

A line that fails leaves the session as it was, its memory, heap, registers and
names included.  What other lines answer does not depend on the failing lines
between them.
-/

namespace LineCalc

namespace Session

variable {session : Session} {config : Config} {environment : Environment}

namespace Holds

/-- A line fails before its program runs: when it is parsed, or because the
program is too long. -/
theorem evaluate_of_not_ok (h : session.Holds config environment)
    {line : String} (hfails : (session.evaluate line).2.isOk = false) :
    (session.evaluate line).1 = session := by
  cases h.outcome line with
  | unparsed _ hevaluate _ => rw [hevaluate]
  | tooLarge _ _ hevaluate _ => rw [hevaluate]
  | runs _ _ hevaluate _ _ _ =>
      rw [hevaluate] at hfails
      cases hfails

theorem answered_filter (h : session.Holds config environment)
    (script : List ScriptLine)
    (hfails : forall entry, entry ∈ session.answered script ->
      entry.1.inserted = true -> entry.2.isOk = false) :
    (session.answered script).filter (fun entry => !entry.1.inserted) =
      session.answered (script.filter fun line => !line.inserted) := by
  induction script generalizing session environment with
  | nil => rfl
  | cons line rest ih =>
      have hrest : forall entry,
          entry ∈ (session.evaluate line.text).1.answered rest ->
          entry.1.inserted = true -> entry.2.isOk = false := by
        intro entry hentry
        exact hfails entry (List.mem_cons_of_mem _ hentry)
      have hlater := ih (h.evaluate_fst line.text) hrest
      cases hinserted : line.inserted with
      | true =>
          have hfirst := hfails _ List.mem_cons_self hinserted
          rw [h.evaluate_of_not_ok hfirst] at hlater
          simp only [answered, List.filter_cons, hinserted,
            h.evaluate_of_not_ok hfirst]
          exact hlater
      | false =>
          simp only [answered, List.filter_cons, hinserted,
            Bool.not_false, ↓reduceIte]
          rw [hlater]

end Holds

/-- Failing lines leave no trace: neither in the session, nor in the answers to
the other lines of a script into which they are inserted. -/
theorem failures_leave_no_trace (hreach : session.Reachable config) :
    (forall line, (session.evaluate line).2.isOk = false ->
      (session.evaluate line).1 = session) ∧
    forall script : List ScriptLine,
      (forall entry, entry ∈ session.answered script ->
        entry.1.inserted = true -> entry.2.isOk = false) ->
      (session.answered script).filter (fun entry => !entry.1.inserted) =
        session.answered (script.filter fun line => !line.inserted) := by
  rcases hreach.holds with ⟨environment, h⟩
  constructor
  · intro line hfails
    exact h.evaluate_of_not_ok hfails
  · intro script hfails
    exact h.answered_filter script hfails

/-- A parenthesis that does not close, before and after a definition. -/
theorem failures_around_definition :
    let session := (Session.new .standard).after [.evaluate "def x = 5"]
    (session.evaluate "def y = (x").1 = session ∧
      (session.answered [⟨"def y = (x", true⟩,
        ⟨"def y = x * 2", false⟩, ⟨"(y", true⟩,
          ⟨"y / 4", false⟩]).filter (fun entry => !entry.1.inserted) =
        session.answered [⟨"def y = x * 2", false⟩, ⟨"y / 4", false⟩] := by
  have h := @failures_leave_no_trace _ .standard
    ⟨[.evaluate "def x = 5"], rfl⟩
  exact ⟨h.left _ (by decide +kernel), h.right _ (by decide +kernel)⟩

end Session

end LineCalc
