import LineCalc.Proofs.Token.Spelling

/-!
# The tokens of a text

Scanning gives the only lexemes whose spans lie in order in the text, whose
tokens are spelled by the slices at these spans, and which leave out nothing but
blanks and characters that start no token.  It goes through the text from the
front, and so do the proofs: what stands at the front is either a lexeme or
passed over.
-/

namespace LineCalc

/-!
## Lexemes in a text
-/

theorem byteLength_pos {text : List Char} (h : text ≠ []) :
    0 < byteLength text := by
  cases text with
  | nil => exact absurd rfl h
  | cons c text =>
      have hc := c.utf8Size_pos
      rw [byteLength_cons]
      omega

theorem exists_eq_append_of_byteLength_le {left right left' right' : List Char}
    (h : left ++ right = left' ++ right')
    (hle : byteLength left ≤ byteLength left') :
    exists middle, left' = left ++ middle ∧ right = middle ++ right' := by
  rcases List.append_eq_append_iff.mp h with
    ⟨middle, hleft, hright⟩ | ⟨middle, hleft, hright⟩
  · exact ⟨middle, hleft, hright⟩
  · cases middle with
    | nil => exact ⟨[], by simpa using hleft.symm, by simpa using hright.symm⟩
    | cons c middle =>
        have hpos := byteLength_pos (List.cons_ne_nil c middle)
        rw [hleft, byteLength_append] at hle
        omega

theorem eq_of_byteLength_eq {left right left' right' : List Char}
    (h : left ++ right = left' ++ right')
    (hlength : byteLength left = byteLength left') :
    left = left' := by
  rcases exists_eq_append_of_byteLength_le h hlength.le with ⟨middle, rfl, _⟩
  have hmiddle : middle = [] := by
    apply Classical.byContradiction
    intro hne
    have hpos := byteLength_pos hne
    rw [byteLength_append] at hlength
    omega
  rw [hmiddle, List.append_nil]

namespace Scanned

variable {before text slice after : List Char} {c : Char} {token : Token}
  {lexemes : List Lexeme}

theorem nil : Scanned before [] [] where
  nonempty := by simp
  ordered := List.Pairwise.nil
  spelled := by simp
  skipped := by simp

theorem byteLength_le_start (h : Scanned before text lexemes) {lexeme : Lexeme}
    (hlexeme : lexeme ∈ lexemes) : byteLength before ≤ lexeme.span.start := by
  rcases h.spelled lexeme hlexeme with ⟨between, slice, after, _, hspan, _⟩
  rw [hspan, byteLength_append]
  exact Nat.le_add_right _ _

theorem skip (hc : ¬ StartsToken c) (h : Scanned (before ++ [c]) text lexemes) :
    Scanned before (c :: text) lexemes where
  nonempty := h.nonempty
  ordered := h.ordered
  spelled := by
    intro lexeme hlexeme
    rcases h.spelled lexeme hlexeme with
      ⟨between, slice, after, rfl, hspan, hspelled⟩
    exact ⟨c :: between, slice, after,
      by simp, by simpa using hspan, by simpa using hspelled⟩
  skipped := by
    intro between d after htext huncovered
    cases between with
    | nil =>
        rw [List.nil_append, List.cons.injEq] at htext
        exact Or.inr (htext.left ▸ hc)
    | cons first between =>
        rw [List.cons_append, List.cons.injEq] at htext
        rcases htext with ⟨rfl, htext⟩
        exact h.skipped between d after htext (by simpa using huncovered)

theorem of_skip (hc : ¬ StartsToken c)
    (h : Scanned before (c :: text) lexemes) :
    Scanned (before ++ [c]) text lexemes where
  nonempty := h.nonempty
  ordered := h.ordered
  spelled := by
    intro lexeme hlexeme
    rcases h.spelled lexeme hlexeme with
      ⟨between, slice, after, htext, hspan, hspelled⟩
    cases between with
    | nil =>
        rcases hspelled.exists_cons with ⟨first, others, rfl, hfirst⟩
        simp only [List.nil_append, List.cons_append, List.cons.injEq] at htext
        exact absurd hfirst (htext.left ▸ hc)
    | cons first between =>
        simp only [List.cons_append, List.cons.injEq] at htext
        rcases htext with ⟨rfl, rfl⟩
        exact ⟨between, slice, after, rfl,
          by simpa using hspan, by simpa using hspelled⟩
  skipped := by
    intro between d after htext huncovered
    exact h.skipped (c :: between) d after (by rw [htext]; rfl)
      (by simpa using huncovered)

theorem cons (hspelled : Token.Spelled before after slice token)
    (h : Scanned (before ++ slice) after lexemes) :
    Scanned before (slice ++ after)
      (⟨token, ⟨byteLength before, byteLength (before ++ slice)⟩⟩ ::
        lexemes) where
  nonempty := by
    intro lexeme hlexeme
    rcases List.mem_cons.mp hlexeme with rfl | hlater
    · rcases hspelled.exists_cons with ⟨first, others, rfl, _⟩
      have hpos := byteLength_pos (List.cons_ne_nil first others)
      rw [byteLength_append]
      exact Nat.lt_add_of_pos_right hpos
    · exact h.nonempty lexeme hlater
  ordered :=
    List.pairwise_cons.mpr ⟨fun _ hlater => h.byteLength_le_start hlater,
      h.ordered⟩
  spelled := by
    intro lexeme hlexeme
    rcases List.mem_cons.mp hlexeme with rfl | hlater
    · exact ⟨[], slice, after, rfl, by simp, by simpa using hspelled⟩
    · rcases h.spelled lexeme hlater with
        ⟨between, other, rest, rfl, hspan, hother⟩
      exact ⟨slice ++ between, other, rest,
        by simp, by simpa using hspan, by simpa using hother⟩
  skipped := by
    intro between d rest htext huncovered
    by_cases hbehind : byteLength slice ≤ byteLength between
    · rcases exists_eq_append_of_byteLength_le htext hbehind with
        ⟨middle, rfl, hafter⟩
      apply h.skipped middle d rest hafter
      intro lexeme hlexeme
      rw [List.append_assoc]
      exact huncovered lexeme (List.mem_cons_of_mem _ hlexeme)
    · have hfirst := huncovered _ List.mem_cons_self
      simp only [Span.Covers, byteLength_append] at hfirst
      omega

theorem of_cons (h : Scanned before (slice ++ after)
      (⟨token, ⟨byteLength before, byteLength (before ++ slice)⟩⟩ :: lexemes)) :
    Scanned (before ++ slice) after lexemes where
  nonempty := fun lexeme hlexeme =>
    h.nonempty lexeme (List.mem_cons_of_mem _ hlexeme)
  ordered := (List.pairwise_cons.mp h.ordered).right
  spelled := by
    intro lexeme hlexeme
    have hbehind := (List.pairwise_cons.mp h.ordered).left lexeme hlexeme
    rcases h.spelled lexeme (List.mem_cons_of_mem _ hlexeme) with
      ⟨between, other, rest, htext, hspan, hother⟩
    rw [hspan, byteLength_append, byteLength_append,
      Nat.add_le_add_iff_left] at hbehind
    rw [List.append_assoc] at htext
    rcases exists_eq_append_of_byteLength_le htext hbehind with
      ⟨middle, rfl, hafter⟩
    refine ⟨middle, other, rest, ?_,
      by simpa using hspan, by simpa using hother⟩
    rw [hafter, List.append_assoc]
  skipped := by
    intro between c rest htext huncovered
    apply h.skipped (slice ++ between) c rest (by rw [htext, List.append_assoc])
    intro lexeme hlexeme
    rcases List.mem_cons.mp hlexeme with rfl | hlater
    · simp only [Span.Covers, byteLength_append]
      omega
    · rw [← List.append_assoc]
      exact huncovered lexeme hlater

/-- Where a token can start, a lexeme stands. -/
theorem exists_front (hc : StartsToken c)
    (h : Scanned before (c :: text) lexemes) :
    exists slice after token others, c :: text = slice ++ after ∧
      Token.Spelled before after slice token ∧
      lexemes =
        ⟨token, ⟨byteLength before, byteLength (before ++ slice)⟩⟩ :: others ∧
      Scanned (before ++ slice) after others := by
  have hcovered : exists lexeme, lexeme ∈ lexemes ∧
      lexeme.span.Covers (byteLength before) := by
    apply Classical.byContradiction
    intro hnone
    rcases h.skipped [] c text rfl (by simpa using hnone) with hblank | hstarts
    · rw [isBlank_eq_false_of_startsToken hc] at hblank
      cases hblank
    · exact hstarts hc
  rcases hcovered with ⟨lexeme, hlexeme, hstart, _⟩
  have hfront : exists others, lexemes = lexeme :: others := by
    cases lexemes with
    | nil => cases hlexeme
    | cons first others =>
        rcases List.mem_cons.mp hlexeme with rfl | hlater
        · exact ⟨others, rfl⟩
        · have hbehind := (List.pairwise_cons.mp h.ordered).left lexeme hlater
          have hfirst := h.nonempty first List.mem_cons_self
          have hbefore : byteLength before ≤ first.span.start :=
            h.byteLength_le_start List.mem_cons_self
          omega
  rcases hfront with ⟨others, rfl⟩
  rcases h.spelled lexeme hlexeme with
    ⟨between, slice, after, htext, hspan, hspelled⟩
  have hbetween : between = [] := by
    apply Classical.byContradiction
    intro hne
    have hpos := byteLength_pos hne
    simp only [hspan, byteLength_append] at hstart
    omega
  subst between
  rw [List.append_nil] at hspan hspelled
  rcases lexeme with ⟨token, span⟩
  simp only at hspan hspelled
  subst span
  rw [List.nil_append] at htext
  rw [htext] at h
  exact ⟨slice, after, token, others, htext, hspelled, rfl, h.of_cons⟩

theorem eq_nil (h : Scanned before [] lexemes) : lexemes = [] := by
  apply List.eq_nil_iff_forall_not_mem.mpr
  intro lexeme hlexeme
  rcases h.spelled lexeme hlexeme with
    ⟨between, slice, after, htext, _, hspelled⟩
  rcases hspelled.exists_cons with ⟨c, rest, rfl, _⟩
  simp at htext

end Scanned

/-!
## Scanning
-/

/-- No numeral goes on across the place between two texts. -/
def NumeralsEnd (before text : List Char) : Prop :=
  forall c d, before.getLast? = some c -> text.head? = some d ->
    isNumeralChar c = true -> isNumeralChar d = false

theorem NumeralsEnd.before {before text : List Char} {c : Char}
    (h : NumeralsEnd before (c :: text)) (hc : isNumeralChar c = true) :
    forall d, before.getLast? = some d -> isNumeralChar d = false := by
  intro d hd
  apply Bool.eq_false_iff.mpr
  intro hnumeral
  have hfirst := h d c hd rfl hnumeral
  rw [hc] at hfirst
  cases hfirst

theorem numeralsEnd_of_head {before text : List Char}
    (h : forall d, text.head? = some d -> isNumeralChar d = false) :
    NumeralsEnd before text :=
  fun _ d _ hd _ => h d hd

theorem numeralsEnd_concat {before text : List Char} {c : Char}
    (h : isNumeralChar c = false) : NumeralsEnd (before ++ [c]) text := by
  intro d e hd _ hnumeral
  rw [List.getLast?_concat, Option.some.injEq] at hd
  rw [← hd, h] at hnumeral
  cases hnumeral

theorem head?_dropWhile_eq_some {p : Char -> Bool} {text : List Char} {c : Char}
    (h : (text.dropWhile p).head? = some c) : p c = false := by
  have hhead := List.head?_dropWhile_not p text
  rw [h] at hhead
  simpa using hhead

namespace Lexeme

theorem scanned_scanFrom (start : Nat) (text before : List Char)
    (hstart : byteLength before = start) (hnumerals : NumeralsEnd before text) :
    Scanned before text (scanFrom start text) := by
  induction start, text using scanFrom.induct generalizing before with
  | case1 start =>
      rw [scanFrom]
      exact Scanned.nil
  | case2 start c rest hname word stop ih =>
      rw [scanFrom, if_pos hname]
      have hword : c :: rest = word ++ rest.dropWhile isNameChar := by
        simp [word, List.takeWhile_append_dropWhile]
      have hstop : byteLength (before ++ word) = stop := by
        rw [byteLength_append, hstart]
      have hends : forall d, (rest.dropWhile isNameChar).head? = some d ->
          isNameChar d = false := fun d hd => head?_dropWhile_eq_some hd
      have hspelled : Token.Spelled before (rest.dropWhile isNameChar) word
          (.ofWord word) :=
        Token.spelled_of_isNameStart hname
          (fun d hd => List.mem_takeWhile_imp hd) hends
      have hrest := ih (before ++ word) hstop
        (numeralsEnd_of_head fun d hd =>
          isNumeralChar_of_not_isNameChar (hends d hd))
      rw [hword]
      have hcons := Scanned.cons hspelled hrest
      rwa [hstart, hstop] at hcons
  | case3 start c rest hname hdigit numeral stop ih =>
      rw [scanFrom, if_neg hname, if_pos hdigit]
      have hnumeral : c :: rest = numeral ++ rest.dropWhile isNumeralChar := by
        simp [numeral, List.takeWhile_append_dropWhile]
      have hstop : byteLength (before ++ numeral) = stop := by
        rw [byteLength_append, hstart]
      have hends : forall d, (rest.dropWhile isNumeralChar).head? = some d ->
          isNumeralChar d = false := fun d hd => head?_dropWhile_eq_some hd
      have hspelled :
          Token.Spelled before (rest.dropWhile isNumeralChar) numeral
          (.number (.ofNumeral numeral)) :=
        Token.spelled_of_isNumeralChar hdigit
          (fun d hd => List.mem_takeWhile_imp hd)
          (hnumerals.before hdigit) hends
      have hrest := ih (before ++ numeral) hstop (numeralsEnd_of_head hends)
      rw [hnumeral]
      have hcons := Scanned.cons hspelled hrest
      rwa [hstart, hstop] at hcons
  | case4 start c rest hname hdigit stop token hsymbol ih =>
      rw [scanFrom, if_neg hname, if_neg hdigit, hsymbol]
      have hstop : byteLength (before ++ [c]) = stop := by
        simp [hstart, stop]
      have hrest :=
        ih (before ++ [c]) hstop
          (numeralsEnd_concat (Bool.eq_false_iff.mpr hdigit))
      have hcons := Scanned.cons (Token.spelled_of_ofSymbol? hsymbol) hrest
      rwa [hstart, hstop] at hcons
  | case5 start c rest hname hdigit stop hsymbol ih =>
      rw [scanFrom, if_neg hname, if_neg hdigit, hsymbol]
      have hstop : byteLength (before ++ [c]) = stop := by
        simp [hstart, stop]
      apply Scanned.skip
      · rw [startsToken_iff, hsymbol]
        simp [hname, hdigit]
      · exact ih (before ++ [c]) hstop
          (numeralsEnd_concat (Bool.eq_false_iff.mpr hdigit))

theorem eq_scanFrom_of_scanned (start : Nat) (text before : List Char)
    (hstart : byteLength before = start) {lexemes : List Lexeme}
    (h : Scanned before text lexemes) : lexemes = scanFrom start text := by
  induction start, text using scanFrom.induct generalizing before lexemes with
  | case1 start =>
      rw [scanFrom]
      exact h.eq_nil
  | case2 start c rest hname word stop ih =>
      rw [scanFrom, if_pos hname]
      rcases h.exists_front (startsToken_iff.mpr (Or.inl hname)) with
        ⟨slice, after, token, others, htext, hspelled, rfl, hothers⟩
      rcases hspelled.eq_of_isNameStart hname htext with ⟨rfl, rfl, rfl⟩
      have hstop : byteLength (before ++ word) = stop := by
        rw [byteLength_append, hstart]
      rw [hstart, hstop, ih (before ++ word) hstop hothers]
  | case3 start c rest hname hdigit numeral stop ih =>
      rw [scanFrom, if_neg hname, if_pos hdigit]
      rcases h.exists_front (startsToken_of_isNumeralChar hdigit) with
        ⟨slice, after, token, others, htext, hspelled, rfl, hothers⟩
      rcases hspelled.eq_of_isNumeralChar hdigit htext with ⟨rfl, rfl, rfl⟩
      have hstop : byteLength (before ++ numeral) = stop := by
        rw [byteLength_append, hstart]
      rw [hstart, hstop, ih (before ++ numeral) hstop hothers]
  | case4 start c rest hname hdigit stop symbol hsymbol ih =>
      rw [scanFrom, if_neg hname, if_neg hdigit, hsymbol]
      have hstarts : StartsToken c :=
        startsToken_iff.mpr (Or.inr (Or.inr (by rw [hsymbol]; rfl)))
      rcases h.exists_front hstarts with
        ⟨slice, after, token, others, htext, hspelled, rfl, hothers⟩
      rcases hspelled.eq_of_ofSymbol? hsymbol htext with ⟨rfl, rfl, rfl⟩
      have hstop : byteLength (before ++ [c]) = stop := by
        simp [hstart, stop]
      rw [hstart, hstop, ih (before ++ [c]) hstop hothers]
  | case5 start c rest hname hdigit stop hsymbol ih =>
      rw [scanFrom, if_neg hname, if_neg hdigit, hsymbol]
      have hstop : byteLength (before ++ [c]) = stop := by
        simp [hstart, stop]
      apply ih (before ++ [c]) hstop
      apply h.of_skip
      rw [startsToken_iff, hsymbol]
      simp [hname, hdigit]

end Lexeme

/-- The lexemes of a line, closed by an end of input behind the last of them,
are those that are spelled in it, and there is only one way to find them. -/
theorem TokenStream.scan_eq_spelled (line : String) :
    exists lexemes,
      (scan line).toList =
        lexemes ++
          [⟨.endOfInput,
            ⟨Lexeme.lastStop lexemes, Lexeme.lastStop lexemes⟩⟩] ∧
      Scanned [] line.toList lexemes ∧
      forall other, Scanned [] line.toList other -> other = lexemes := by
  refine ⟨Lexeme.scanFrom 0 line.toList, ?_, ?_, ?_⟩
  · unfold scan toList closing ofLexemes Lexeme.lastStop
    cases (Lexeme.scanFrom 0 line.toList).getLast? <;> rfl
  · apply Lexeme.scanned_scanFrom 0 line.toList [] rfl
    intro c d hc
    cases hc
  · intro other hother
    exact Lexeme.eq_scanFrom_of_scanned 0 line.toList [] rfl hother

end LineCalc
