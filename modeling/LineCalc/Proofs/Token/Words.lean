import LineCalc.Proofs.Token.Scan
import LineCalc.Proofs.Token.Slices

/-!
# Words in a line

A text that is a name is scanned as one token wherever it stands in front of a
blank, an operator or a parenthesis, and nothing else is scanned as a name.
-/

namespace LineCalc

/-- A letter and any characters that end no word, unless this is the keyword. -/
def IsName (text : String) : Prop :=
  exists first others, text.toList = first :: others ∧ first.isAlpha ∧
    (forall c, c ∈ others -> ¬ EndsWord c) ∧ text ≠ "def"

/-!
## Steps of the scanner
-/

namespace Lexeme

variable {start : Nat} {c : Char} {rest : List Char}

theorem scanFrom_word {others after : List Char} (hfirst : isNameStart c = true)
    (hothers : forall d, d ∈ others -> isNameChar d = true)
    (hafter : forall d, after.head? = some d -> isNameChar d = false) :
    scanFrom start (c :: others ++ after) =
      ⟨.ofWord (c :: others), ⟨start, start + byteLength (c :: others)⟩⟩ ::
        scanFrom (start + byteLength (c :: others)) after := by
  rcases eq_takeWhile_of_append hothers hafter with ⟨htake, hdrop⟩
  rw [List.cons_append, scanFrom, if_pos hfirst, htake, hdrop]

theorem scanFrom_symbol {token : Token} (hc : Token.ofSymbol? c = some token) :
    scanFrom start (c :: rest) =
      ⟨token, ⟨start, start + c.utf8Size⟩⟩ :: scanFrom
        (start + c.utf8Size) rest := by
  have hname : ¬ isNameStart c = true := by
    intro hname
    rw [Token.ofSymbol?_eq_none (Or.inl hname)] at hc
    cases hc
  have hnumeral : ¬ isNumeralChar c = true := by
    intro hnumeral
    rw [Token.ofSymbol?_eq_none (Or.inr hnumeral)] at hc
    cases hc
  rw [scanFrom, if_neg hname, if_neg hnumeral, hc]

theorem scanFrom_skip (hc : ¬ StartsToken c) :
    scanFrom start (c :: rest) = scanFrom (start + c.utf8Size) rest := by
  rw [startsToken_iff] at hc
  have hname : ¬ isNameStart c = true := fun hname => hc (Or.inl hname)
  have hnumeral : ¬ isNumeralChar c = true :=
    fun hnumeral => hc (Or.inr (Or.inl hnumeral))
  have hsymbol : Token.ofSymbol? c = none := by
    rw [← Option.not_isSome_iff_eq_none]
    exact fun hsymbol => hc (Or.inr (Or.inr hsymbol))
  rw [scanFrom, if_neg hname, if_neg hnumeral, hsymbol]

theorem scanFrom_blank (hc : isBlank c = true) :
    scanFrom start (c :: rest) = scanFrom (start + c.utf8Size) rest := by
  apply scanFrom_skip
  intro hstarts
  rw [isBlank_eq_false_of_startsToken hstarts] at hc
  cases hc

end Lexeme

theorem TokenStream.scanned_scan (line : String) :
    Scanned [] line.toList (scan line).pending := by
  apply Lexeme.scanned_scanFrom 0 line.toList [] rfl
  intro c d hc
  cases hc

theorem TokenStream.lineTokens_scan (line : String) :
    (scan line).lineTokens =
      (Lexeme.scanFrom 0 line.toList).map Lexeme.token := by
  have hscan := map_token_scan line
  rw [toList, List.map_append] at hscan
  exact (List.append_cancel_right hscan).symm

/-!
## Names
-/

namespace IsName

variable {name : String}

theorem ofWord_toList (h : IsName name) :
    Token.ofWord name.toList = .name name := by
  rcases h with ⟨first, others, _, _, _, hdefine⟩
  have hword : name.toList ≠ ['d', 'e', 'f'] := by
    intro hword
    exact hdefine (String.toList_inj.mp hword)
  rw [Token.ofWord, if_neg hword, String.ofList_toList]

theorem scanFrom_append (h : IsName name) (start : Nat) {after : List Char}
    (hafter : forall c, after.head? = some c -> EndsWord c) :
    Lexeme.scanFrom start (name.toList ++ after) =
      ⟨.name name, ⟨start, start + byteLength name.toList⟩⟩ ::
        Lexeme.scanFrom (start + byteLength name.toList) after := by
  have hword := h.ofWord_toList
  rcases h with ⟨first, others, htext, hfirst, hothers, _⟩
  rw [htext] at hword ⊢
  rw [Lexeme.scanFrom_word hfirst (fun c hc => isNameChar_iff.mpr (hothers c hc))
    (fun c hc => isNameChar_eq_false_iff.mpr (hafter c hc)), hword]

theorem scanFrom_toList (h : IsName name) (start : Nat) :
    Lexeme.scanFrom start name.toList =
      [⟨.name name, ⟨start, start + byteLength name.toList⟩⟩] := by
  have hend : forall c, [].head? = some c -> EndsWord c := by simp
  have hscan := h.scanFrom_append start hend
  rwa [List.append_nil, Lexeme.scanFrom] at hscan

theorem toList_scan (h : IsName name) :
    (TokenStream.scan name).toList =
      [⟨.name name, ⟨0, byteLength name.toList⟩⟩,
        ⟨.endOfInput, ⟨byteLength name.toList, byteLength name.toList⟩⟩] := by
  rw [TokenStream.scan, h.scanFrom_toList, Nat.zero_add]
  rfl

theorem lineTokens_scan (h : IsName name) :
    (TokenStream.scan name).lineTokens = [.name name] := by
  rw [TokenStream.lineTokens_scan, h.scanFrom_toList]
  rfl

theorem lineTokens_scan_definition (h : IsName name) :
    (TokenStream.scan ("def " ++ name ++ " = " ++ name)).lineTokens =
      [.define, .name name, .equals, .name name] := by
  have htext : ("def " ++ name ++ " = " ++ name).toList =
      'd' :: ['e', 'f'] ++
        (' ' :: (name.toList ++ (' ' :: '=' :: ' ' :: name.toList))) := by
    simp [String.toList_append]
  have hblank : forall rest c, (' ' :: rest).head? = some c -> EndsWord c := by
    intro rest c hc
    rw [← Option.some.inj hc]
    exact Or.inr (by decide)
  have hletters : forall c, c ∈ ['e', 'f'] -> isNameChar c = true := by
    intro c hc
    simp only [List.mem_cons, List.not_mem_nil, or_false] at hc
    rcases hc with rfl | rfl <;> decide
  have hequals : Token.ofSymbol? '=' = some .equals := rfl
  rw [TokenStream.lineTokens_scan, htext,
    Lexeme.scanFrom_word (by decide) hletters
      (fun c hc => isNameChar_eq_false_iff.mpr (hblank _ c hc)),
    Lexeme.scanFrom_blank (by decide), h.scanFrom_append _ (hblank _),
    Lexeme.scanFrom_blank (by decide), Lexeme.scanFrom_symbol hequals,
    Lexeme.scanFrom_blank (by decide), h.scanFrom_toList]
  rfl

end IsName

theorem Token.Spelled.isName {before after slice : List Char} {name : String}
    (h : Token.Spelled before after slice (.name name)) : IsName name := by
  cases h with
  | @name first others hfirst hothers _ hdefine =>
      refine ⟨first, others, String.toList_ofList, hfirst, hothers, ?_⟩
      intro heq
      have hslice := congrArg String.toList heq
      rw [String.toList_ofList] at hslice
      exact hdefine hslice

theorem exists_spelled_of_mem_lineTokens {line : String} {token : Token}
    (h : token ∈ (TokenStream.scan line).lineTokens) :
    exists before slice after, line.toList = before ++ slice ++ after ∧
      Token.Spelled before after slice token := by
  rw [TokenStream.lineTokens_scan] at h
  rcases List.mem_map.mp h with ⟨lexeme, hlexeme, rfl⟩
  rcases (TokenStream.scanned_scan line).spelled lexeme hlexeme with
    ⟨before, slice, after, htext, _, hspelled⟩
  exact ⟨before, slice, after, htext, hspelled⟩

theorem isName_of_mem_lineTokens {line name : String}
    (h : .name name ∈ (TokenStream.scan line).lineTokens) : IsName name := by
  rcases exists_spelled_of_mem_lineTokens h with ⟨_, _, _, _, hspelled⟩
  exact hspelled.isName

end LineCalc
