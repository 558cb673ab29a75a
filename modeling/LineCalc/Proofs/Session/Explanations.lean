import LineCalc.Diagnostic.Explanation
import LineCalc.Proofs.Machine.Parentheses
import LineCalc.Proofs.Session.Diagnostics
import LineCalc.Proofs.Session.History
import LineCalc.Proofs.Token.Words

/-!
# Explanations under lines

Under the line that was refused, carets stand below the characters of the token
at fault.  Under another line the same offsets are clamped to its end, and only
if one of them then falls inside a character is there no explanation.
-/

namespace LineCalc

/-!
## Layout
-/

namespace EvalError

variable {palette : Palette} {line : String} {error : EvalError}

theorem render_of_unplaced (hspan : error.span? = none) :
    error.render palette line =
      some (endedLines [palette.boldRed "error" ++ ": " ++
        palette.bold error.reason]) := by
  simp only [render, hspan, headline, endedLines, List.map_cons, List.map_nil,
    String.join_cons, String.join_nil, String.append_empty]

theorem headline_append_excerpt (underline : Underline) :
    error.headline palette ++ error.excerpt palette line underline =
      endedLines (palette.pointing error.reason line
        (underline.indent + 1) underline.carets
        error.label) := by
  unfold headline excerpt endedLines Palette.pointing
  rw [Nat.add_sub_cancel]
  -- the digits of the column must not be unfolded when texts are compared
  generalize (underline.indent + 1).repr = column
  simp only [List.map_cons, List.map_nil, String.join_cons, String.join_nil,
    String.append_empty, String.append_assoc]

theorem render_of_underline {span : Span} {underline : Underline}
    (hspan : error.span? = some span)
    (hunderline : Underline.ofSpan? line.toList span = some underline) :
    error.render palette line =
      some (endedLines (palette.pointing error.reason line (underline.indent + 1)
        underline.carets error.label)) := by
  simp only [render, hspan, hunderline, Option.map_some,
    headline_append_excerpt]

theorem render_eq_none_iff {span : Span} (hspan : error.span? = some span) :
    error.render palette line = none <->
      Underline.ofSpan? line.toList span = none := by
  simp only [render, hspan, Option.map_eq_none_iff]

end EvalError

/-!
## The token at fault
-/

theorem TokenStream.stop_scan (line : String) :
    (scan line).stop = Lexeme.lastStop (scan line).pending := by
  unfold scan ofLexemes Lexeme.lastStop
  cases (Lexeme.scanFrom 0 line.toList).getLast? <;> rfl

namespace Session

variable {session : Session} {config : Config} {line : String}
  {error : EvalError}

theorem Holds.exists_blames {environment : Environment} {span : Span}
    (h : session.Holds config environment)
    (hrefused : (session.evaluate line).2 = .error error ∨
      (session.compile line).2 = .error error)
    (hspan : error.span? = some span) :
    exists found, found ∈ (TokenStream.scan line).toList ∧
      session.Blames line error found := by
  rcases h.exists_parse_of_refused hrefused hspan with ⟨failure, hparse, rfl⟩
  have hfails := Machine.compile_eq_error_iff.mpr ⟨failure.registers, hparse⟩
  rcases Machine.exists_refuses hfails with
    ⟨read, found, other, herror, hreaches, hrefuses, _⟩
  have hfault := (Machine.fault_of_refuses hrefuses).left
  rw [herror] at hfault
  have hfound : failure.error.span? = some found.span := by
    rcases Statement.span?_of_refuses hrefuses with hnone | hfound
    · rw [herror] at hnone
      exact absurd (hnone.symm.trans hspan) (Option.some_ne_none _).symm
    · rwa [herror] at hfound
  rcases hreaches.split with ⟨unread, hstream⟩
  exact ⟨found,
    by simp [hstream], hfound, read, failure.error, rfl, hreaches, hfault⟩

theorem exists_slice_of_mem {found : Lexeme}
    (hmem : found ∈ (TokenStream.scan line).toList) :
    (exists before slice after, line.toList = before ++ slice ++ after ∧
      found.span = ⟨byteLength before, byteLength (before ++ slice)⟩ ∧
      Token.Spelled before after slice found.token) ∨
    exists before after, line.toList = before ++ after ∧
      found.token = .endOfInput ∧
      found.span = ⟨byteLength before, byteLength before⟩ ∧
      byteLength before = Lexeme.lastStop (TokenStream.scan line).pending := by
  rcases List.mem_append.mp hmem with hpending | hclosing
  · left
    rcases (TokenStream.scanned_scan line).spelled found hpending with
      ⟨before, slice, after, htext, hspan, hspelled⟩
    exact ⟨before, slice, after, htext, hspan, hspelled⟩
  · right
    rcases List.mem_singleton.mp hclosing with rfl
    rcases TokenStream.cuts_of_mem_scan hmem with
      ⟨before, slice, after, htext, hspan⟩
    have hstop : (TokenStream.scan line).stop = byteLength before :=
      congrArg Span.start hspan
    have hwidth : (TokenStream.scan line).stop = byteLength (before ++ slice) :=
      congrArg Span.stop hspan
    refine ⟨before, slice ++ after,
      by rw [htext, List.append_assoc], rfl, ?_, ?_⟩
    · rw [hspan, ← hstop, ← hwidth]
    · rw [← hstop, TokenStream.stop_scan]

/-- Whatever a session refuses is explained, with carets under the token at
fault. -/
theorem explains_of_refused (hreachable : session.Reachable config)
    (hrefused : (session.evaluate line).2 = .error error ∨
      (session.compile line).2 = .error error) :
    exists output, error.render ⟨false⟩ line = some output ∧
      session.Explains line error output := by
  rcases hreachable.holds with ⟨environment, h⟩
  cases hspan : error.span? with
  | none => exact ⟨_, EvalError.render_of_unplaced hspan, .unplaced hspan⟩
  | some span =>
      rcases h.exists_blames hrefused hspan with ⟨found, hmem, hblames⟩
      rcases exists_slice_of_mem hmem with
        ⟨before, slice, after, htext, hfound, hspelled⟩ |
          ⟨before, after, htext, hended, hfound, hstop⟩
      · rcases hspelled.exists_cons with ⟨first, others, hslice, _⟩
        have hunderline : Underline.ofSpan? line.toList found.span =
            some ⟨before.length, slice.length⟩ := by
          rw [htext, hfound, Underline.ofSpan?_slice, Nat.max_eq_right]
          rw [hslice]
          exact Nat.succ_pos _
        exact ⟨_, EvalError.render_of_underline hblames.span hunderline,
          .atToken hblames htext hfound hspelled⟩
      · have hunderline : Underline.ofSpan? line.toList found.span =
            some ⟨before.length, 1⟩ := by
          have hslice := Underline.ofSpan?_slice before [] after
          rw [List.append_nil] at hslice
          rw [htext, hfound]
          exact hslice
        exact ⟨_, EvalError.render_of_underline hblames.span hunderline,
          .atEnd hblames hended htext hstop⟩

/-- The name `b€` stands behind seven characters, the first of which is
skipped. -/
theorem explains_undefined_name :
    let session := (Session.new .standard).after [.evaluate "def a = 2"]
    let line := "é (a + b€)*2"
    let error := EvalError.parse (.undefinedVariable "b€" ⟨8, 12⟩)
    session.Reachable .standard ∧ (session.evaluate line).2 = .error error ∧
      session.Explains line error
        ("error: undefined variable: b€\n  --> col 8\n  |\n  | é (a + b€)*2\n" ++
          "  |        ^^ not defined\n") := by
  intro session line error
  have hreachable : session.Reachable .standard := ⟨_, rfl⟩
  have hrefused : (session.evaluate line).2 = .error error := by decide +kernel
  rcases explains_of_refused hreachable (Or.inl hrefused) with
    ⟨output, hrender, hexplains⟩
  have hshown : error.render ⟨false⟩ line = some
      ("error: undefined variable: b€\n  --> col 8\n  |\n  | é (a + b€)*2\n" ++
        "  |        ^^ not defined\n") := by
    decide +kernel
  rw [hshown, Option.some.injEq] at hrender
  rw [hrender]
  exact ⟨hreachable, hrefused, hexplains⟩

/-!
## Other lines
-/

/-- Under any line, an explanation points at what lies between the clamped
offsets, and it fails exactly if one of these splits a character. -/
theorem render_under_other_line (hreachable : session.Reachable config)
    (hrefused : (session.evaluate line).2 = .error error ∨
      (session.compile line).2 = .error error) (palette : Palette)
    (shown : String) :
    (error.span? = none ->
      exists output, error.render palette shown = some output) ∧
    forall span, error.span? = some span ->
      let start := min span.start (byteLength shown.toList)
      let stop := min span.stop (byteLength shown.toList)
      (error.render palette shown = none <->
        ¬ IsBoundary start shown.toList ∨ ¬ IsBoundary stop shown.toList) ∧
      forall output, error.render palette shown = some output ->
        exists before inside after, shown.toList = before ++ inside ++ after ∧
          byteLength before = start ∧ byteLength (before ++ inside) = stop ∧
          output =
            endedLines (palette.pointing error.reason shown (before.length + 1)
            (max 1 inside.length) error.label) := by
  rcases hreachable.holds with ⟨environment, h⟩
  refine ⟨fun hnone => ⟨_, EvalError.render_of_unplaced hnone⟩, ?_⟩
  intro span hspan start stop
  have hordered := (h.cuts_of_refused hrefused hspan).start_le_stop
  constructor
  · rw [EvalError.render_eq_none_iff hspan]
    exact Underline.ofSpan?_eq_none_iff hordered
  · intro output hrender
    cases hunderline : Underline.ofSpan? shown.toList span with
    | none =>
        rw [(EvalError.render_eq_none_iff hspan).mpr hunderline] at hrender
        cases hrender
    | some underline =>
        rcases (Underline.ofSpan?_eq_some_iff hordered).mp hunderline with
          ⟨before, inside, after, htext, hbefore, hinside, rfl⟩
        rw [EvalError.render_of_underline hspan hunderline] at hrender
        exact ⟨before, inside, after, htext, hbefore, hinside,
          (Option.some.inj hrender).symm⟩

/-- The offset 4 lies inside the last character of `ü+é`. -/
theorem render_under_split_character :
    let error := EvalError.parse (.undefinedVariable "abc" ⟨4, 7⟩)
    (Session.new .standard).Reachable .standard ∧
      ((Session.new .standard).evaluate "1 + abc").2 = .error error ∧
      ¬ IsBoundary (min 4 (byteLength "ü+é".toList)) "ü+é".toList ∧
      error.render ⟨true⟩ "ü+é" = none := by
  intro error
  have hreachable : (Session.new .standard).Reachable .standard := ⟨[], rfl⟩
  have hrefused : ((Session.new .standard).evaluate "1 + abc").2 =
      .error error := by decide +kernel
  have hsplit : ¬ IsBoundary (min 4 (byteLength "ü+é".toList)) "ü+é".toList :=
    cutAt?_eq_none_iff.mp (by decide +kernel)
  rcases render_under_other_line hreachable (Or.inl hrefused) ⟨true⟩ "ü+é" with
    ⟨_, hplaced⟩
  exact ⟨hreachable, hrefused, hsplit, (hplaced _ rfl).left.mpr (Or.inl hsplit)⟩

end Session

end LineCalc
