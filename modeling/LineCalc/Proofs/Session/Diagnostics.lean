import LineCalc.Diagnostic
import LineCalc.Proofs.Session.Line
import LineCalc.Proofs.Statement.Refusal
import LineCalc.Proofs.Token.Slices

/-!
# Explanations of refusals

A refusal blames at most the lexeme at which the line was refused, and lexemes
begin and end between characters of the line.  So under the line that was
refused, nothing keeps the place from being underlined.
-/

namespace LineCalc

/-!
## Spans of lexemes
-/

def Span.Cuts (span : Span) (text : List Char) : Prop :=
  exists before slice after, text = before ++ slice ++ after ∧
    span = ⟨byteLength before, byteLength (before ++ slice)⟩

theorem Span.cuts_of_scanned {text : List Char} {lexemes : List Lexeme}
    {lexeme : Lexeme} (h : Scanned [] text lexemes) (hmem : lexeme ∈ lexemes) :
    lexeme.span.Cuts text := by
  rcases h.spelled lexeme hmem with ⟨before, slice, after, htext, hspan, _⟩
  exact ⟨before, slice, after, htext, hspan⟩

theorem Span.cuts_closing {text : List Char} {lexemes : List Lexeme}
    (h : Scanned [] text lexemes) :
    (TokenStream.ofLexemes lexemes).closing.span.Cuts text := by
  unfold TokenStream.ofLexemes TokenStream.closing
  cases hlast : lexemes.getLast? with
  | none => exact ⟨[], [], text, rfl, rfl⟩
  | some last =>
      rcases cuts_of_scanned h (List.mem_of_getLast? hlast) with
        ⟨before, slice, after, htext, hspan⟩
      refine ⟨before ++ slice, [], after, by simpa using htext, ?_⟩
      simp [hspan]

theorem TokenStream.cuts_of_mem_scan {line : String} {lexeme : Lexeme}
    (h : lexeme ∈ (TokenStream.scan line).toList) :
    lexeme.span.Cuts line.toList := by
  have hscanned : Scanned [] line.toList (Lexeme.scanFrom 0 line.toList) := by
    apply Lexeme.scanned_scanFrom 0 line.toList [] rfl
    intro c d hc
    cases hc
  rcases List.mem_append.mp h with hpending | hclosing
  · exact Span.cuts_of_scanned hscanned hpending
  · rw [List.mem_singleton.mp hclosing]
    exact Span.cuts_closing hscanned

/-!
## Lexemes to blame
-/

theorem Reading.span?_of_refusal {scope : Scope} {reading : Reading}
    {found : Lexeme} {error : ParseError}
    (h : Refusal scope reading found error) :
    error.span? = some found.span := by
  cases h with
  | undefined _ => rfl
  | tooDeep _ => rfl
  | illegal _ hillegal =>
      cases error <;> cases hillegal <;> rfl

theorem Statement.span?_of_refuses {scope : Scope} {read : List Lexeme}
    {found : Lexeme} {failure : ParseFailure}
    (h : Refuses scope read found failure) :
    failure.error.span? = none ∨ failure.error.span? = some found.span := by
  cases h with
  | variableName _ _ => exact Or.inr rfl
  | equalsSign _ _ _ => exact Or.inr rfl
  | storage _ _ _ _ => exact Or.inl rfl
  | body _ _ _ hstops =>
      exact Or.inr (Reading.span?_of_refusal (Reading.refusal_of_stops hstops))

theorem Session.cuts_of_parse_error {session : Session} {line : String}
    {failure : ParseFailure} {span : Span}
    (hparse : session.parse line = .error failure)
    (hspan : failure.error.span? = some span) : span.Cuts line.toList := by
  rcases Statement.parse_eq_error_iff.mp hparse with
    ⟨read, found, unread, hstream, hrefuses⟩
  have hmem : found ∈ (TokenStream.scan line).toList := by simp [hstream]
  rcases Statement.span?_of_refuses hrefuses with hnone | hfound
  · rw [hnone] at hspan
    cases hspan
  · rw [hfound] at hspan
    cases hspan
    exact TokenStream.cuts_of_mem_scan hmem

/-!
## Underlines
-/

theorem Span.Cuts.start_le_stop {span : Span} {text : List Char}
    (h : span.Cuts text) :
    span.start ≤ span.stop := by
  rcases h with ⟨before, slice, _, _, rfl⟩
  rw [byteLength_append]
  exact Nat.le_add_right _ _

section Underlining

variable {line : List Char} {span : Span}

/-- The part of a line between the ends of a span is underlined, where these are
clamped to the line; an empty part gets a single caret. -/
theorem Underline.ofSpan?_eq_some_iff (hspan : span.start ≤ span.stop)
    {underline : Underline} :
    ofSpan? line span = some underline <->
      exists before inside after, line = before ++ inside ++ after ∧
        byteLength before = min span.start (byteLength line) ∧
        byteLength (before ++ inside) = min span.stop (byteLength line) ∧
        underline = ⟨before.length, max 1 inside.length⟩ := by
  have hstart : min span.start (min span.stop (byteLength line)) =
      min span.start (byteLength line) := by omega
  simp only [ofSpan?, hstart, Option.bind_eq_bind,
    Option.bind_eq_some_iff, Prod.exists, cutAt?_eq_some_iff]
  constructor
  · rintro ⟨before, rest, ⟨rfl, hbefore⟩, covered, after, ⟨hline, hcovered⟩,
      front, inside, ⟨rfl, hfront⟩, hunderline⟩
    rw [List.append_assoc] at hline
    rcases eq_of_byteLength_eq hline (hbefore.trans hfront.symm) with rfl
    rw [← List.append_assoc] at hline
    exact ⟨before, inside, after, hline, hbefore, hcovered,
      (Option.some.inj hunderline).symm⟩
  · rintro ⟨before, inside, after, hline, hbefore, hcovered, rfl⟩
    exact ⟨before, inside ++ after, ⟨by rw [hline, List.append_assoc], hbefore⟩,
      before ++ inside, after, ⟨hline, hcovered⟩, before, inside,
      ⟨rfl, hbefore⟩, rfl⟩

theorem Underline.ofSpan?_eq_none_iff (hspan : span.start ≤ span.stop) :
    ofSpan? line span = none <->
      ¬ IsBoundary (min span.start (byteLength line)) line ∨
        ¬ IsBoundary (min span.stop (byteLength line)) line := by
  rw [← not_and_or, ← not_iff_not, not_not, ← Ne, Option.ne_none_iff_exists']
  simp only [ofSpan?_eq_some_iff hspan]
  constructor
  · rintro ⟨_, before, inside, after, hline, hbefore, hcovered, _⟩
    exact ⟨⟨before, inside ++ after, by rw [hline, List.append_assoc], hbefore⟩,
      before ++ inside, after, hline, hcovered⟩
  · rintro ⟨⟨before, rest, hline, hbefore⟩, covered, after, hother, hcovered⟩
    have hle : byteLength before ≤ byteLength covered := by omega
    rcases exists_eq_append_of_byteLength_le (hline.symm.trans hother) hle with
      ⟨inside, rfl, _⟩
    exact ⟨_, before, inside, after, hother, hbefore, hcovered, rfl⟩

theorem Underline.ofSpan?_slice (before slice after : List Char) :
    ofSpan? (before ++ slice ++ after) ⟨byteLength before,
      byteLength (before ++ slice)⟩ =
      some ⟨before.length, max 1 slice.length⟩ := by
  have hcuts : Span.Cuts ⟨byteLength before, byteLength (before ++ slice)⟩
      (before ++ slice ++ after) := ⟨before, slice, after, rfl, rfl⟩
  refine (ofSpan?_eq_some_iff hcuts.start_le_stop).mpr ⟨before, slice, after,
    rfl, ?_, ?_, rfl⟩
  · simp only [byteLength_append]
    omega
  · simp only [byteLength_append]
    omega

end Underlining

theorem EvalError.isSome_render_of_cuts {line : String} {error : EvalError}
    (palette : Palette)
    (hcuts : forall span, error.span? = some span -> span.Cuts line.toList) :
    (error.render palette line).isSome := by
  unfold render
  cases hspan : error.span? with
  | none => rfl
  | some span =>
      rcases hcuts span hspan with ⟨before, slice, after, htext, rfl⟩
      simp only [htext, Underline.ofSpan?_slice]
      rfl

namespace Session.Holds

variable {session : Session} {config : Config} {environment : Environment}

theorem exists_parse_of_refused (h : session.Holds config environment)
    {line : String} {cause : EvalError} {span : Span}
    (hrefused : (session.evaluate line).2 = .error cause ∨
      (session.compile line).2 = .error cause)
    (hspan : cause.span? = some span) :
    exists failure, session.parse line = .error failure ∧
      cause = .parse failure.error := by
  cases h.outcome line with
  | unparsed hparse hevaluate hcompile =>
      simp only [hevaluate, hcompile, or_self, Except.error.injEq] at hrefused
      exact ⟨_, hparse, hrefused.symm⟩
  | tooLarge _ _ hevaluate hcompile =>
      simp only [hevaluate, hcompile, or_self, Except.error.injEq] at hrefused
      subst cause
      cases hspan
  | runs _ _ hevaluate hcompile _ _ =>
      rw [hevaluate, hcompile] at hrefused
      rcases hrefused with hvalue | hcode
      · cases hvalue
      · cases hcode

theorem cuts_of_refused (h : session.Holds config environment) {line : String}
    {cause : EvalError} {span : Span}
    (hrefused : (session.evaluate line).2 = .error cause ∨
      (session.compile line).2 = .error cause)
    (hspan : cause.span? = some span) :
    span.Cuts line.toList := by
  rcases h.exists_parse_of_refused hrefused hspan with ⟨failure, hparse, rfl⟩
  exact cuts_of_parse_error hparse hspan

/-- Whatever a session refuses is explained under its own line. -/
theorem isSome_render (h : session.Holds config environment) {line : String}
    {cause : EvalError} (hrefused : (session.evaluate line).2 = .error cause ∨
      (session.compile line).2 = .error cause) (palette : Palette) :
    (cause.render palette line).isSome :=
  EvalError.isSome_render_of_cuts palette fun _ hspan =>
    h.cuts_of_refused hrefused hspan

end Session.Holds

end LineCalc
