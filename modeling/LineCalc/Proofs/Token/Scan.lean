import LineCalc.Token.Scan
import LineCalc.Tree.Grammar

/-!
# The tokens of a scanned line

The only end of input in a scanned line is the one that closes it, so that all
tokens of the line are read as one sentence.
-/

namespace LineCalc

theorem Token.ofWord_ne_endOfInput (word : List Char) :
    Token.ofWord word ≠ .endOfInput := by
  unfold Token.ofWord
  split <;> simp

theorem Token.ne_endOfInput_of_ofSymbol? {c : Char} {token : Token}
    (h : Token.ofSymbol? c = some token) : token ≠ .endOfInput := by
  intro hend
  subst hend
  unfold Token.ofSymbol? at h
  split at h
  · cases h
  · split at h
    · cases h
    · split at h
      · cases h
      · rcases Option.map_eq_some_iff.mp h with ⟨op, _, hop⟩
        cases hop

theorem Lexeme.token_ne_endOfInput_of_mem_scanFrom (start : Nat)
    (text : List Char) (lexeme : Lexeme)
    (h : lexeme ∈ Lexeme.scanFrom start text) :
    lexeme.token ≠ .endOfInput := by
  induction start, text using Lexeme.scanFrom.induct with
  | case1 start =>
      rw [scanFrom] at h
      cases h
  | case2 start c rest hname word stop ih =>
      rw [scanFrom, if_pos hname] at h
      cases List.mem_cons.mp h with
      | inl hhere =>
          rw [hhere]
          exact Token.ofWord_ne_endOfInput _
      | inr hlater => exact ih hlater
  | case3 start c rest hname hdigit numeral stop ih =>
      rw [scanFrom, if_neg hname, if_pos hdigit] at h
      cases List.mem_cons.mp h with
      | inl hhere =>
          rw [hhere]
          simp
      | inr hlater => exact ih hlater
  | case4 start c rest hname hdigit stop token hsymbol ih =>
      rw [scanFrom, if_neg hname, if_neg hdigit, hsymbol] at h
      cases List.mem_cons.mp h with
      | inl hhere =>
          rw [hhere]
          exact Token.ne_endOfInput_of_ofSymbol? hsymbol
      | inr hlater => exact ih hlater
  | case5 start c rest hname hdigit stop hsymbol ih =>
      rw [scanFrom, if_neg hname, if_neg hdigit, hsymbol] at h
      exact ih h

theorem TokenStream.map_token_scan (line : String) :
    (scan line).toList.map Lexeme.token =
      (scan line).lineTokens ++ [.endOfInput] := by
  have hproper : forall token, token ∈ (scan line).pending.map Lexeme.token ->
      decide (token ≠ .endOfInput) = true := by
    intro token htoken
    rcases List.mem_map.mp htoken with ⟨lexeme, hlexeme, rfl⟩
    exact decide_eq_true
      (Lexeme.token_ne_endOfInput_of_mem_scanFrom 0 _ lexeme hlexeme)
  unfold lineTokens toList
  rw [List.map_append, List.takeWhile_append_of_pos hproper]
  simp [closing]

end LineCalc
