import LineCalc.Proofs.Decimal.Positional
import LineCalc.Proofs.Token.Separators

/-!
# Texts of tokens

The text of a token spells the token, unless this is a number that no numeral
denotes.  Blanks keep the texts apart, so a line that is written anew from the
texts of its tokens has the same tokens.
-/

namespace LineCalc

/-!
## Single tokens
-/

theorem Binary64.exists_of_isFinite_ofNumeral {numeral : List Char}
    (h : (ofNumeral numeral).IsFinite) :
    exists m, ofNumeral numeral = signed false m ∧ m ≠ .infinity := by
  unfold ofNumeral at h ⊢
  cases hread : Decimal.ofNumeral? numeral with
  | none =>
      rw [hread] at h
      exact h.elim
  | some d =>
      rw [hread] at h
      exact ⟨d.magnitude, rfl, h⟩

namespace Token

variable {before after slice : List Char} {token : Token}

theorem Spelled.alone (h : Spelled before after slice token) :
    Spelled [] [] slice token := by
  have hend : forall (p : Char -> Prop) c, [].head? = some c -> p c := by simp
  have hstart : forall (p : Char -> Prop) c, [].getLast? = some c ->
      p c := by simp
  cases h with
  | define _ => exact .define (hend _)
  | name hfirst hothers _ hdefine => exact .name hfirst hothers (hend _) hdefine
  | number hne hchars _ _ => exact .number hne hchars (hstart _) (hend _)
  | openParen => exact .openParen
  | closeParen => exact .closeParen
  | equals => exact .equals
  | operator => exact .operator

theorem Spelled.map_token_scanFrom (h : Spelled [] [] slice token) :
    (Lexeme.scanFrom 0 slice).map Lexeme.token = [token] := by
  have hscanned := Scanned.cons h Scanned.nil
  rw [List.append_nil] at hscanned
  rw [← Lexeme.eq_scanFrom_of_scanned 0 slice [] rfl hscanned]
  rfl

theorem spelled_number {m : Magnitude} (h : m ≠ .infinity) :
    Spelled [] [] (Binary64.signed false m).plainChars
      (.number (.signed false m)) := by
  have hread := Binary64.ofNumeral_plainChars h
  have hchars : forall c, c ∈ (Binary64.signed false m).plainChars ->
      isNumeralChar c = true := by
    rw [Binary64.plainChars_of_ne_infinity h]
    exact fun c hc => Decimal.isNumeralChar_of_mem_positional hc
  have hne : (Binary64.signed false m).plainChars ≠ [] := by
    intro hnil
    rw [hnil] at hread
    cases hread
  have hspelled := @Spelled.number [] [] _ hne hchars (by simp) (by simp)
  rwa [hread] at hspelled

/-- The text of a token that is spelled somewhere spells the token. -/
theorem Spelled.text (h : Spelled before after slice token)
    (hfinite : forall value, token = .number value -> value.IsFinite) :
    Spelled [] [] token.text.toList token := by
  have halone := h.alone
  cases h with
  | define _ => exact halone
  | @name first others _ _ _ _ =>
      rw [Token.text, String.toList_ofList]
      exact halone
  | number _ _ _ _ =>
      rcases Binary64.exists_of_isFinite_ofNumeral (hfinite _ rfl) with
        ⟨m, hread, hm⟩
      rw [hread, Token.text, Binary64.plainText, String.toList_ofList]
      exact spelled_number hm
  | openParen => exact halone
  | closeParen => exact halone
  | equals => exact halone
  | @operator op =>
      have htext : (Token.operator op).text.toList = [op.symbol] := by
        simp [Token.text]
      rw [htext]
      exact halone

/-!
## Lines of tokens
-/

theorem map_token_intercalate {tokens : List Token}
    (h : forall token, token ∈ tokens ->
      Spelled [] [] token.text.toList token) :
    (Lexeme.scanFrom 0 (" ".intercalate (tokens.map Token.text)).toList).map
      Lexeme.token =
      tokens := by
  induction tokens with
  | nil =>
      rw [List.map_nil, String.intercalate_nil, String.toList_empty,
        Lexeme.scanFrom]
      rfl
  | cons token tokens ih =>
      have hfirst := (h token List.mem_cons_self).map_token_scanFrom
      have hothers := ih fun other hother =>
        h other (List.mem_cons_of_mem _ hother)
      cases tokens with
      | nil =>
          rw [List.map_singleton, String.intercalate_singleton]
          exact hfirst
      | cons next tokens =>
          have hblank : EndsWord ' ' := by decide
          have htext :
              (" ".intercalate ((token :: next :: tokens).map Token.text)).toList =
              token.text.toList ++
                ' ' :: (" ".intercalate
                  ((next :: tokens).map Token.text)).toList := by
            simp [String.intercalate_cons_cons, String.toList_append]
          rw [htext, Lexeme.map_token_separator hblank, hfirst, hothers]
          rfl

end Token

namespace TokenStream

/-- Scanning the texts of the tokens of a line, with spaces between them, gives
back the tokens, if all numbers among them are finite. -/
theorem lineTokens_scan_intercalate {line : String}
    (h : forall value, .number value ∈ (scan line).lineTokens ->
      value.IsFinite) :
    (scan (" ".intercalate ((scan line).lineTokens.map Token.text))).lineTokens =
      (scan line).lineTokens := by
  rw [lineTokens_scan]
  apply Token.map_token_intercalate
  intro token htoken
  rcases exists_spelled_of_mem_lineTokens htoken with
    ⟨before, slice, after, _, hspelled⟩
  apply hspelled.text
  rintro value rfl
  exact h value htoken

/-- The texts `1.5` and `5` stand for the numerals `1.50` and `005.`, and `x=5.`
is a name. -/
theorem lineTokens_scan_intercalate_numerals :
    let line := "def x=5. = (1.50+def1)*005./.5"
    let tokens := (scan line).lineTokens
    (forall value, .number value ∈ tokens -> value.IsFinite) ∧
      (scan (" ".intercalate (tokens.map Token.text))).lineTokens = tokens := by
  intro line tokens
  have htokens : tokens =
      [.define, .name "x=5.", .equals, .openParen,
        .number (.ofNumeral "1.50".toList), .operator (.additive .plus),
        .name "def1", .closeParen, .operator (.multiplicative .times),
        .number (.ofNumeral "005.".toList), .operator (.multiplicative .over),
        .number (.ofNumeral ".5".toList)] := by
    decide +kernel
  have hfinite : forall value, .number value ∈ tokens -> value.IsFinite := by
    intro value hvalue
    rw [htokens] at hvalue
    simp only [List.mem_cons, List.not_mem_nil, reduceCtorEq,
      Token.number.injEq, false_or, or_false] at hvalue
    rcases hvalue with rfl | rfl | rfl <;> decide +kernel
  exact ⟨hfinite, lineTokens_scan_intercalate hfinite⟩

end TokenStream

end LineCalc
