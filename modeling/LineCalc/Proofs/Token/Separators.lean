import LineCalc.Proofs.Token.Words

/-!
# Texts cut at separators

No token reaches across a blank, an operator or a parenthesis.  So the pieces of
a text between such characters are scanned each by itself, and blanks next to a
separator change no token.
-/

namespace LineCalc

def Token.ofSeparator? : Char -> Option Token
  | '(' => some .openParen
  | ')' => some .closeParen
  | '+' => some (.operator (.additive .plus))
  | '-' => some (.operator (.additive .minus))
  | '*' => some (.operator (.multiplicative .times))
  | '/' => some (.operator (.multiplicative .over))
  | _ => none

namespace Lexeme

def ofSeparator? (start : Nat) (c : Char) : Option Lexeme :=
  (Token.ofSeparator? c).map fun token => ⟨token, ⟨start, start + c.utf8Size⟩⟩

def shift (distance : Nat) (lexeme : Lexeme) : Lexeme :=
  ⟨lexeme.token, ⟨lexeme.span.start + distance, lexeme.span.stop + distance⟩⟩

end Lexeme

/-!
## Separators
-/

theorem Token.ofSymbol?_of_endsWord {c : Char} (hc : EndsWord c) :
    Token.ofSymbol? c = Token.ofSeparator? c := by
  rcases hc with hsymbol | hblank
  · simp only [List.mem_cons, List.not_mem_nil, or_false] at hsymbol
    rcases hsymbol with rfl | rfl | rfl | rfl | rfl | rfl <;> rfl
  · have hsymbol : Token.ofSymbol? c = none := by
      rw [← Option.not_isSome_iff_eq_none, Token.isSome_ofSymbol?_iff]
      intro hmem
      simp only [List.mem_cons, List.not_mem_nil, or_false] at hmem
      rcases hmem with rfl | rfl | rfl | rfl | rfl | rfl | rfl <;> cases hblank
    rw [hsymbol]
    unfold Token.ofSeparator?
    split <;> first | rfl | cases hblank

theorem takeWhile_append_cons {p : Char -> Bool} {c : Char} (hc : p c = false)
    (left right : List Char) :
    (left ++ c :: right).takeWhile p = left.takeWhile p ∧
      (left ++ c :: right).dropWhile p = left.dropWhile p ++ c :: right := by
  induction left with
  | nil => simp [hc]
  | cons first left ih =>
      cases hfirst : p first with
      | false => simp [hfirst]
      | true => simpa [hfirst] using ih

namespace Lexeme

variable {start : Nat} {c : Char} {rest : List Char}

theorem scanFrom_of_isNameStart (hc : isNameStart c = true) :
    scanFrom start (c :: rest) =
      ⟨.ofWord (c :: rest.takeWhile isNameChar),
          ⟨start, start + byteLength (c :: rest.takeWhile isNameChar)⟩⟩ ::
        scanFrom (start + byteLength (c :: rest.takeWhile isNameChar))
          (rest.dropWhile isNameChar) := by
  rw [scanFrom, if_pos hc]

theorem scanFrom_of_isNumeralChar (hc : isNumeralChar c = true) :
    scanFrom start (c :: rest) =
      ⟨.number (.ofNumeral (c :: rest.takeWhile isNumeralChar)),
          ⟨start, start + byteLength (c :: rest.takeWhile isNumeralChar)⟩⟩ ::
        scanFrom (start + byteLength (c :: rest.takeWhile isNumeralChar))
          (rest.dropWhile isNumeralChar) := by
  have hname : ¬ isNameStart c = true := by
    intro hname
    rw [isNumeralChar_of_isNameStart hname] at hc
    cases hc
  rw [scanFrom, if_neg hname, if_pos hc]

/-!
## Scanning piece by piece
-/

theorem scanFrom_add (start distance : Nat) (text : List Char) :
    scanFrom (start + distance) text =
      (scanFrom start text).map (shift distance) := by
  induction start, text using scanFrom.induct with
  | case1 start => simp [scanFrom]
  | case2 start c rest hname word stop ih =>
      rw [scanFrom, if_pos hname, scanFrom, if_pos hname, List.map_cons, ← ih]
      simp [shift, word, stop, Nat.add_right_comm]
  | case3 start c rest hname hdigit numeral stop ih =>
      rw [scanFrom, if_neg hname, if_pos hdigit, scanFrom, if_neg hname,
        if_pos hdigit, List.map_cons, ← ih]
      simp [shift, numeral, stop, Nat.add_right_comm]
  | case4 start c rest hname hdigit stop token hsymbol ih =>
      rw [scanFrom, if_neg hname, if_neg hdigit, hsymbol, scanFrom,
        if_neg hname, if_neg hdigit, hsymbol, List.map_cons, ← ih]
      simp [shift, stop, Nat.add_right_comm]
  | case5 start c rest hname hdigit stop hsymbol ih =>
      rw [scanFrom, if_neg hname, if_neg hdigit, hsymbol, scanFrom,
        if_neg hname, if_neg hdigit, hsymbol, ← ih]
      simp [stop, Nat.add_right_comm]

/-- Scanning stops at a separator and goes on behind what has been scanned. -/
theorem scanFrom_append_cons (hc : EndsWord c) (start : Nat)
    (left right : List Char) :
    scanFrom start (left ++ c :: right) =
      scanFrom start left ++
        scanFrom (start + byteLength left) (c :: right) := by
  have hword : isNameChar c = false := isNameChar_eq_false_iff.mpr hc
  have hnumeral : isNumeralChar c = false :=
    isNumeralChar_of_not_isNameChar hword
  induction start, left using scanFrom.induct with
  | case1 start => simp [scanFrom]
  | case2 start first rest hname word stop ih =>
      rcases takeWhile_append_cons hword rest right with ⟨htake, hdrop⟩
      have hbehind : start + byteLength (first :: rest) =
          stop + byteLength (rest.dropWhile isNameChar) := by
        rw [Nat.add_assoc, ← byteLength_append, List.cons_append,
          List.takeWhile_append_dropWhile]
      rw [List.cons_append, scanFrom_of_isNameStart hname,
        scanFrom_of_isNameStart hname, htake, hdrop, ih, hbehind,
        List.cons_append]
  | case3 start first rest hname hdigit numeral stop ih =>
      rcases takeWhile_append_cons hnumeral rest right with ⟨htake, hdrop⟩
      have hbehind : start + byteLength (first :: rest) =
          stop + byteLength (rest.dropWhile isNumeralChar) := by
        rw [Nat.add_assoc, ← byteLength_append, List.cons_append,
          List.takeWhile_append_dropWhile]
      rw [List.cons_append, scanFrom_of_isNumeralChar hdigit,
        scanFrom_of_isNumeralChar hdigit, htake, hdrop, ih, hbehind,
        List.cons_append]
  | case4 start first rest hname hdigit stop token hsymbol ih =>
      rw [List.cons_append, scanFrom_symbol hsymbol, scanFrom_symbol hsymbol,
        byteLength_cons, ← Nat.add_assoc, List.cons_append, ← ih]
  | case5 start first rest hname hdigit stop hsymbol ih =>
      have hstarts : ¬ StartsToken first := by
        rw [startsToken_iff, hsymbol]
        simp [hname, hdigit]
      rw [List.cons_append, scanFrom_skip hstarts, scanFrom_skip hstarts,
        byteLength_cons, ← Nat.add_assoc, ← ih]

theorem scanFrom_separator (hc : EndsWord c) (start : Nat) (text : List Char) :
    scanFrom start (c :: text) =
      (ofSeparator? start c).toList ++ scanFrom (start + c.utf8Size) text := by
  unfold ofSeparator?
  rw [← Token.ofSymbol?_of_endsWord hc]
  cases hsymbol : Token.ofSymbol? c with
  | some token => rw [scanFrom_symbol hsymbol]; rfl
  | none =>
      have hstarts : ¬ StartsToken c := by
        intro hstarts
        rcases hc with hmem | hblank
        · simp only [List.mem_cons, List.not_mem_nil, or_false] at hmem
          rcases hmem with rfl | rfl | rfl | rfl | rfl | rfl <;> cases hsymbol
        · rw [isBlank_eq_false_of_startsToken hstarts] at hblank
          cases hblank
      rw [scanFrom_skip hstarts]
      rfl

/-!
## Blanks between the pieces
-/

theorem map_token_scanFrom (start : Nat) (text : List Char) :
    (scanFrom start text).map token = (scanFrom 0 text).map token := by
  have hshift := scanFrom_add 0 start text
  rw [Nat.zero_add] at hshift
  rw [hshift, List.map_map]
  rfl

theorem map_token_blanks {blanks : List Char}
    (hblanks : forall d, d ∈ blanks -> isBlank d) (start : Nat)
    (text : List Char) :
    (scanFrom start (blanks ++ text)).map token =
      (scanFrom 0 text).map token := by
  induction blanks generalizing start with
  | nil => exact map_token_scanFrom start text
  | cons d blanks ih =>
      rw [List.cons_append, scanFrom_blank (hblanks d List.mem_cons_self)]
      exact ih (fun e he => hblanks e (List.mem_cons_of_mem d he)) _

theorem map_token_separator (hc : EndsWord c) (left right : List Char) :
    (scanFrom 0 (left ++ c :: right)).map token =
      (scanFrom 0 left).map token ++ (Token.ofSeparator? c).toList ++
        (scanFrom 0 right).map token := by
  have hseparator : (ofSeparator? (0 + byteLength left) c).toList.map token =
      (Token.ofSeparator? c).toList := by
    unfold ofSeparator?
    cases Token.ofSeparator? c <;> rfl
  rw [scanFrom_append_cons hc, scanFrom_separator hc, List.map_append,
    List.map_append, hseparator, map_token_scanFrom _ right, List.append_assoc]

theorem map_token_blanks_separator {blanks : List Char}
    (hblanks : forall d, d ∈ blanks -> isBlank d) (hc : EndsWord c)
    (left right : List Char) :
    (scanFrom 0 (left ++ blanks ++ c :: right)).map token =
      (scanFrom 0 (left ++ c :: right)).map token := by
  cases blanks with
  | nil => rw [List.append_nil]
  | cons d blanks =>
      have hd : EndsWord d := Or.inr (hblanks d List.mem_cons_self)
      rw [List.append_assoc, List.cons_append, scanFrom_append_cons hd,
        List.map_append, ← List.cons_append, map_token_blanks hblanks,
        scanFrom_append_cons hc, List.map_append,
        map_token_scanFrom (0 + byteLength left) (c :: right)]

end Lexeme

/-- A text is scanned piece by piece: the lexemes in front of a separator, the
separator, and the lexemes behind it, which stand as many bytes further behind
as there are in front of them.  Blanks around the separator change no token. -/
theorem TokenStream.scan_append_separator (left right : String) {c : Char}
    (hc : EndsWord c) :
    (scan (left ++ String.singleton c ++ right)).pending =
        (scan left).pending ++
          (Lexeme.ofSeparator? (byteLength left.toList) c).toList ++
          (scan right).pending.map
            (Lexeme.shift (byteLength left.toList + c.utf8Size)) ∧
      forall before after : String,
        (forall d, d ∈ before.toList -> isBlank d) ->
        (forall d, d ∈ after.toList -> isBlank d) ->
        (scan (left ++ before ++ String.singleton c ++ after ++ right)).lineTokens =
          (scan (left ++ String.singleton c ++ right)).lineTokens := by
  have htext : (left ++ String.singleton c ++ right).toList =
      left.toList ++ c :: right.toList := by
    simp [String.toList_append]
  constructor
  · have hshift :=
      Lexeme.scanFrom_add 0 (byteLength left.toList + c.utf8Size) right.toList
    rw [Nat.zero_add] at hshift
    simp only [scan, ofLexemes]
    rw [htext, Lexeme.scanFrom_append_cons hc, Nat.zero_add,
      Lexeme.scanFrom_separator hc, hshift, List.append_assoc]
  · intro before after hbefore hafter
    have hwide :
        (left ++ before ++ String.singleton c ++ after ++ right).toList =
        left.toList ++ before.toList ++
          c :: (after.toList ++ right.toList) := by
      simp [String.toList_append]
    rw [lineTokens_scan, lineTokens_scan, htext, hwide,
      Lexeme.map_token_blanks_separator hbefore hc,
      Lexeme.map_token_separator hc, Lexeme.map_token_separator hc,
      Lexeme.map_token_blanks hafter]

/-- An ideographic space, of three bytes, behind a name with an accent. -/
theorem TokenStream.scan_append_wide_space :
    let left := "x=\u00e9"
    let right := "2.5*y"
    let c := '\u3000'
    EndsWord c ∧
      (scan (left ++ String.singleton c ++ right)).pending =
        (scan left).pending ++
          (Lexeme.ofSeparator? (byteLength left.toList) c).toList ++
          (scan right).pending.map
            (Lexeme.shift (byteLength left.toList + c.utf8Size)) ∧
      forall before after : String,
        (forall d, d ∈ before.toList -> isBlank d) ->
        (forall d, d ∈ after.toList -> isBlank d) ->
        (scan (left ++ before ++ String.singleton c ++ after ++ right)).lineTokens =
          (scan (left ++ String.singleton c ++ right)).lineTokens := by
  intro left right c
  have hc : EndsWord c := by decide
  exact ⟨hc, scan_append_separator left right hc⟩

end LineCalc
