import LineCalc.Proofs.Decimal.Decoding
import LineCalc.Proofs.Token.Words

/-!
# Numerals in a line

The numbers of a line stand where a run of digits and points cannot be made
longer, and each is the number to which the run is decoded.  Of the other runs
in a line every one belongs to a name.
-/

namespace LineCalc

/-!
## What stands at a character
-/

namespace Scanned

variable {text before after : List Char} {c : Char} {lexemes : List Lexeme}

theorem exists_covers (h : Scanned [] text lexemes)
    (htext : text = before ++ c :: after) (hc : StartsToken c) :
    exists lexeme, lexeme ∈ lexemes ∧
      lexeme.span.Covers (byteLength before) := by
  apply Classical.byContradiction
  intro hnone
  have huncovered : forall lexeme, lexeme ∈ lexemes ->
      ¬ lexeme.span.Covers (byteLength ([] ++ before)) :=
    fun lexeme hlexeme hcovers => hnone ⟨lexeme, hlexeme, hcovers⟩
  rcases h.skipped before c after htext huncovered with hblank | hstarts
  · rw [isBlank_eq_false_of_startsToken hc] at hblank
    cases hblank
  · exact hstarts hc

theorem exists_spelled_around (h : Scanned [] text lexemes)
    (htext : text = before ++ c :: after) (hc : StartsToken c) :
    exists lexeme between front back rest, lexeme ∈ lexemes ∧
      before = between ++ front ∧
      c :: after = back ++ rest ∧ back ≠ [] ∧
      lexeme.span = ⟨byteLength between, byteLength (before ++ back)⟩ ∧
      Token.Spelled between rest (front ++ back) lexeme.token := by
  rcases h.exists_covers htext hc with ⟨lexeme, hlexeme, hstart, hstop⟩
  rcases h.spelled lexeme hlexeme with
    ⟨between, slice, rest, hslice, hspan, hspelled⟩
  rw [List.nil_append] at hspan hspelled
  rw [hspan] at hstart hstop
  have hcut : between ++ (slice ++ rest) = before ++ (c :: after) := by
    rw [← htext, hslice, List.append_assoc]
  rcases exists_eq_append_of_byteLength_le hcut hstart with ⟨front, rfl, hfront⟩
  have hlength : byteLength front ≤ byteLength slice := by
    simp only [byteLength_append] at hstop
    omega
  rcases exists_eq_append_of_byteLength_le hfront.symm hlength with
    ⟨back, rfl, hback⟩
  refine ⟨lexeme, between, front, back, rest, hlexeme, rfl, hback,
    ?_, ?_, hspelled⟩
  · rintro rfl
    simp at hstop
  · rw [hspan, List.append_assoc]

end Scanned

namespace Numeral

variable {before run after : List Char}

/-!
## Runs
-/

theorem exists_isRun_of_spelled {value : Binary64}
    (h : Token.Spelled before after run (.number value)) :
    IsRun before run after ∧ value = .ofNumeral run := by
  cases h with
  | number hne hchars hstarts hends =>
      exact ⟨⟨hne, hchars, hstarts, hends⟩, rfl⟩

theorem IsRun.decodes (h : IsRun before run after) :
    Decodes run (Binary64.ofNumeral run).toBits :=
  decodes_ofNumeral h.nonempty h.chars

theorem IsRun.exists_cons (h : IsRun before run after) :
    exists c others, run = c :: others ∧ isNumeralChar c = true := by
  rcases List.exists_cons_of_ne_nil h.nonempty with ⟨c, others, rfl⟩
  exact ⟨c, others, rfl, h.chars c List.mem_cons_self⟩

section Slices

variable {between front back rest : List Char}

theorem exists_back_eq_append (htext : run ++ after = back ++ rest)
    (hends : forall c, rest.head? = some c -> c ∉ run) :
    exists inner, back = run ++ inner ∧ after = inner ++ rest := by
  rcases List.append_eq_append_iff.mp htext with
    ⟨inner, hback, hafter⟩ | ⟨inner, hrun, hrest⟩
  · exact ⟨inner, hback, hafter⟩
  · cases inner with
    | nil => exact ⟨[], by simpa using hrun.symm, by simpa using hrest.symm⟩
    | cons c inner =>
        have hmem : c ∈ run := by
          rw [hrun]
          exact List.mem_append_right _ List.mem_cons_self
        exact absurd hmem (hends c (by rw [hrest]; rfl))

theorem IsRun.in_word {first : Char} {others : List Char}
    (h : IsRun (between ++ front) run after)
    (htext : run ++ after = back ++ rest)
    (hslice : front ++ back = first :: others)
    (hfirst : isNameStart first = true)
    (hafter : forall c, rest.head? = some c -> isNameChar c = false) :
    front ≠ [] ∧ (exists inner, back = run ++ inner) ∧
      Token.ofWord (front ++ back) = .name (String.ofList (front ++ back)) := by
  have hends : forall c, rest.head? = some c -> c ∉ run := by
    intro c hc hmem
    have hchar := isNumeralChar_of_not_isNameChar (hafter c hc)
    rw [h.chars c hmem] at hchar
    cases hchar
  rcases exists_back_eq_append htext hends with ⟨inner, rfl, _⟩
  rcases h.exists_cons with ⟨c, digits, rfl, hc⟩
  refine ⟨?_, ⟨inner, rfl⟩, ?_⟩
  · rintro rfl
    rw [List.nil_append, List.cons_append, List.cons.injEq] at hslice
    rw [hslice.left, isNumeralChar_of_isNameStart hfirst] at hc
    cases hc
  · apply if_neg
    intro hdefine
    have hmem : c ∈ ['d', 'e', 'f'] := by
      rw [← hdefine]
      exact List.mem_append_right _ List.mem_cons_self
    simp only [List.mem_cons, List.not_mem_nil, or_false] at hmem
    rcases hmem with rfl | rfl | rfl <;> cases hc

/-- A numeral around a run is the run. -/
theorem IsRun.eq_numeral (h : IsRun (between ++ front) run after)
    (htext : run ++ after = back ++ rest)
    (hchars : forall c, c ∈ front ++ back -> isNumeralChar c = true)
    (hafter : forall c, rest.head? = some c -> isNumeralChar c = false) :
    front = [] ∧ back = run := by
  have hends : forall c, rest.head? = some c -> c ∉ run := by
    intro c hc hmem
    have hchar := hafter c hc
    rw [h.chars c hmem] at hchar
    cases hchar
  rcases exists_back_eq_append htext hends with ⟨inner, rfl, rfl⟩
  constructor
  · apply Classical.byContradiction
    intro hne
    rcases List.eq_nil_or_concat front with hnil | ⟨others, c, rfl⟩
    · exact hne hnil
    · apply h.starts c (by simp)
      exact hchars c (by simp)
  · cases inner with
    | nil => rw [List.append_nil]
    | cons c inner =>
        have hchar := hchars c (by simp)
        exact absurd hchar (h.ends c rfl)

theorem IsRun.not_symbol {symbol : Char} {token : Token}
    (h : IsRun before run after) (htext : run ++ after = back ++ rest)
    (hback : back ≠ []) (hslice : front ++ back = [symbol])
    (hsymbol : Token.ofSymbol? symbol = some token) : False := by
  rcases h.exists_cons with ⟨c, digits, rfl, hc⟩
  rcases List.exists_cons_of_ne_nil hback with ⟨d, others, rfl⟩
  rw [List.cons_append, List.cons_append, List.cons.injEq] at htext
  have hfront : front = [] := by
    cases front with
    | nil => rfl
    | cons e front => simp at hslice
  rw [hfront, List.nil_append, List.cons.injEq] at hslice
  rw [← hslice.left, ← htext.left,
    Token.ofSymbol?_eq_none (Or.inr hc)] at hsymbol
  cases hsymbol

end Slices

end Numeral

/-!
## Numbers of a line
-/

namespace TokenStream

variable {line : String} {before run after : List Char}

theorem exists_lexeme_of_isRun (htext : line.toList = before ++ run ++ after)
    (h : Numeral.IsRun before run after) :
    ⟨.number (.ofNumeral run),
      ⟨byteLength before, byteLength (before ++ run)⟩⟩ ∈
        (scan line).pending ∨
      exists name span, ⟨.name name, span⟩ ∈ (scan line).pending ∧
        span.start < byteLength before ∧
        byteLength (before ++ run) ≤ span.stop := by
  rcases h.exists_cons with ⟨c, others, hrun, hc⟩
  have hsplit : line.toList = before ++ c :: (others ++ after) := by
    rw [htext, hrun, List.append_assoc, List.cons_append]
  rcases (scanned_scan line).exists_spelled_around hsplit
    (startsToken_of_isNumeralChar hc) with
    ⟨⟨token, span⟩, between, front, back, rest, hlexeme, rfl, hback, hne,
      hspan, hspelled⟩
  rw [← List.cons_append, ← hrun] at hback
  simp only at hspan hspelled
  subst hspan
  rcases hspelled.cases with ⟨first, word, hslice, hfirst, _, hafter, rfl⟩ |
    ⟨first, numeral, hslice, hfirst, hnumeral, hafter,
      rfl⟩ | ⟨symbol, hslice, hsymbol⟩
  · right
    rcases h.in_word hback hslice hfirst hafter with
      ⟨hfront, ⟨inner, rfl⟩, hname⟩
    have hpos := byteLength_pos hfront
    rw [hname] at hlexeme
    refine ⟨_, _, hlexeme, ?_, ?_⟩
    · simp only [byteLength_append]
      omega
    · simp only [byteLength_append]
      omega
  · left
    have hchars : forall d, d ∈ front ++ back -> isNumeralChar d = true := by
      rw [hslice]
      intro d hd
      rcases List.mem_cons.mp hd with rfl | hd
      · exact hfirst
      · exact hnumeral d hd
    rcases h.eq_numeral hback hchars hafter with ⟨rfl, rfl⟩
    simpa using hlexeme
  · exact (h.not_symbol hback hne hslice hsymbol).elim

/-- The numbers of a line are what its runs of digits and points are decoded to,
and each run that is no part of a name gives a number. -/
theorem scan_decodes (line : String) :
    (forall value span, ⟨.number value, span⟩ ∈ (scan line).pending ->
      exists before run after, line.toList = before ++ run ++ after ∧
        Numeral.IsRun before run after ∧
        span = ⟨byteLength before, byteLength (before ++ run)⟩ ∧
        Numeral.Decodes run value.toBits) ∧
    forall before run after, line.toList = before ++ run ++ after ->
      Numeral.IsRun before run after ->
      (exists value,
        ⟨.number value, ⟨byteLength before, byteLength (before ++ run)⟩⟩ ∈
            (scan line).pending ∧
          Numeral.Decodes run value.toBits) ∨
      exists name span, ⟨.name name, span⟩ ∈ (scan line).pending ∧
        span.start < byteLength before ∧
        byteLength (before ++ run) ≤ span.stop := by
  constructor
  · intro value span hlexeme
    rcases (scanned_scan line).spelled _ hlexeme with
      ⟨before, run, after, htext, hspan, hspelled⟩
    rcases Numeral.exists_isRun_of_spelled hspelled with ⟨hrun, rfl⟩
    exact ⟨before, run, after, htext, hrun, hspan, hrun.decodes⟩
  · intro before run after htext hrun
    rcases exists_lexeme_of_isRun htext hrun with hnumber | hname
    · exact Or.inl ⟨_, hnumber, hrun.decodes⟩
    · exact Or.inr hname

/-- `2 ^ 53 + 1` lies halfway between two words, and the run `1` belongs to a
name. -/
theorem scan_decodes_halfway :
    let line := "x1*9007199254740993."
    let run := "9007199254740993.".toList
    Numeral.IsRun "x1*".toList run [] ∧
      ⟨.number (Binary64.ofBits 0x4340000000000000),
        ⟨3, 20⟩⟩ ∈ (scan line).pending ∧
      Numeral.Decodes run 0x4340000000000000 := by
  intro line run
  have hpending : (scan line).pending =
      [⟨.name "x1", ⟨0, 2⟩⟩,
        ⟨.operator (.multiplicative .times), ⟨2, 3⟩⟩,
        ⟨.number (Binary64.ofBits 0x4340000000000000), ⟨3, 20⟩⟩] := by
    decide +kernel
  have hrun : Numeral.IsRun "x1*".toList run [] :=
    ⟨by decide, List.all_eq_true.mp (by decide), by simp [isNumeralChar], by simp⟩
  have hlexeme : ⟨.number (Binary64.ofBits 0x4340000000000000), ⟨3, 20⟩⟩ ∈
      (scan line).pending := by
    simp [hpending]
  refine ⟨hrun, hlexeme, ?_⟩
  rcases (scan_decodes line).right "x1*".toList run [] (by decide) hrun with
    ⟨value, hvalue, hdecodes⟩ | ⟨name, span, hname, _, hstop⟩
  · simp only [hpending, List.mem_cons, List.not_mem_nil, or_false,
      Lexeme.mk.injEq, reduceCtorEq, false_and, false_or,
      Token.number.injEq] at hvalue
    rw [hvalue.left] at hdecodes
    exact hdecodes
  · simp only [hpending, List.mem_cons, List.not_mem_nil, or_false,
      Lexeme.mk.injEq, reduceCtorEq, false_and, Token.name.injEq] at hname
    rw [hname.right] at hstop
    exact absurd hstop (by decide)

end TokenStream

end LineCalc
