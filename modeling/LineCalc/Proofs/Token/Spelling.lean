import LineCalc.Token.Spelling
import LineCalc.Token.Scan
import Mathlib.Data.List.TakeWhile

/-!
# What slices spell

The first character of a slice tells whether it spells a word, a numeral or a
symbol.  Where a token starts, the text decides how long the slice is and which
token it spells.
-/

namespace LineCalc

/-!
## Characters
-/

theorem Operator.isSome_ofSymbol?_iff {c : Char} :
    (Operator.ofSymbol? c).isSome = true <-> c ∈ ['+', '-', '*', '/'] := by
  constructor
  · intro h
    rcases Option.isSome_iff_exists.mp h with ⟨op, hop⟩
    rw [Operator.ofSymbol?_eq_some_iff.mp hop]
    rcases op with op | op <;> cases op <;> decide
  · intro h
    simp only [List.mem_cons, List.not_mem_nil, or_false] at h
    rcases h with rfl | rfl | rfl | rfl <;> rfl

theorem isNameChar_iff {c : Char} : isNameChar c = true <-> ¬ EndsWord c := by
  have hoperator := @Operator.isSome_ofSymbol?_iff c
  unfold isNameChar EndsWord
  grind

theorem isNameChar_eq_false_iff {c : Char} :
    isNameChar c = false <-> EndsWord c := by
  rw [← Bool.not_eq_true, isNameChar_iff, Decidable.not_not]

theorem Token.isSome_ofSymbol?_iff {c : Char} :
    (Token.ofSymbol? c).isSome = true <->
      c ∈ ['(', ')', '=', '+', '-', '*', '/'] := by
  have hoperator := @Operator.isSome_ofSymbol?_iff c
  unfold Token.ofSymbol?
  grind

theorem startsToken_iff {c : Char} :
    StartsToken c <->
      isNameStart c = true ∨ isNumeralChar c = true ∨
      (Token.ofSymbol? c).isSome = true := by
  rw [Token.isSome_ofSymbol?_iff]
  unfold StartsToken isNameStart isNumeralChar
  grind

theorem toNat_of_isAlpha {c : Char} (h : c.isAlpha = true) :
    0x41 ≤ c.toNat ∧ c.toNat ≤ 0x5a ∨ 0x61 ≤ c.toNat ∧
    c.toNat ≤ 0x7a := by
  change (decide ('A'.val ≤ c.val ∧ c.val ≤ 'Z'.val) ||
    decide ('a'.val ≤ c.val) && decide (c.val ≤ 'z'.val)) = true at h
  simp only [Bool.or_eq_true, Bool.and_eq_true, decide_eq_true_eq,
    UInt32.le_iff_toNat_le] at h
  exact h

theorem toNat_of_isDigit {c : Char} (h : c.isDigit = true) :
    0x30 ≤ c.toNat ∧ c.toNat ≤ 0x39 := by
  simp only [Char.isDigit, Bool.and_eq_true, decide_eq_true_eq,
    UInt32.le_iff_toNat_le, ge_iff_le] at h
  exact h

theorem toNat_of_startsToken {c : Char} (h : StartsToken c) :
    0x28 ≤ c.toNat ∧ c.toNat ≤ 0x7a := by
  rcases h with h | h | h
  · have hrange := toNat_of_isAlpha h
    omega
  · have hrange := toNat_of_isDigit h
    omega
  · simp only [List.mem_cons, List.not_mem_nil, or_false] at h
    rcases h with rfl | rfl | rfl | rfl | rfl | rfl | rfl | rfl <;> decide

theorem isBlank_eq_false_of_startsToken {c : Char} (h : StartsToken c) :
    isBlank c = false := by
  have hrange := toNat_of_startsToken h
  simp only [isBlank, blankRanges, List.any_cons, List.any_nil, Bool.or_false,
    Bool.or_eq_false_iff, Bool.and_eq_false_iff, decide_eq_false_iff_not]
  omega

theorem startsToken_of_isNumeralChar {c : Char} (h : isNumeralChar c = true) :
    StartsToken c :=
  startsToken_iff.mpr (Or.inr (Or.inl h))

theorem not_endsWord_of_isNumeralChar {c : Char} (h : isNumeralChar c = true) :
    ¬ EndsWord c := by
  intro hends
  rcases hends with hsymbol | hblank
  · simp only [List.mem_cons, List.not_mem_nil, or_false] at hsymbol
    rcases hsymbol with rfl | rfl | rfl | rfl | rfl | rfl <;> cases h
  · rw [isBlank_eq_false_of_startsToken (startsToken_of_isNumeralChar h)] at hblank
    cases hblank

theorem isNumeralChar_of_not_isNameChar {c : Char} (h : isNameChar c = false) :
    isNumeralChar c = false := by
  apply Bool.eq_false_iff.mpr
  intro hnumeral
  exact not_endsWord_of_isNumeralChar hnumeral (isNameChar_eq_false_iff.mp h)

theorem isNumeralChar_of_isNameStart {c : Char} (h : isNameStart c = true) :
    isNumeralChar c = false := by
  have halpha := toNat_of_isAlpha h
  apply Bool.eq_false_iff.mpr
  intro hnumeral
  simp only [isNumeralChar, Bool.or_eq_true, decide_eq_true_eq] at hnumeral
  rcases hnumeral with hdigit | rfl
  · have hrange := toNat_of_isDigit hdigit
    omega
  · cases h

theorem Token.ofSymbol?_eq_none {c : Char}
    (h : isNameStart c = true ∨ isNumeralChar c = true) :
    Token.ofSymbol? c = none := by
  rw [← Option.not_isSome_iff_eq_none, Token.isSome_ofSymbol?_iff]
  intro hc
  simp only [List.mem_cons, List.not_mem_nil, or_false] at hc
  rcases hc with rfl | rfl | rfl | rfl | rfl | rfl | rfl <;>
    rcases h with h | h <;> cases h

/-!
## Spellings
-/

namespace Token

theorem ofSymbol?_symbol (op : Operator) :
    Token.ofSymbol? op.symbol = some (.operator op) := by
  rcases op with op | op <;> cases op <;> rfl

variable {before after slice : List Char} {token : Token}

theorem spelled_of_ofSymbol? {c : Char} (h : Token.ofSymbol? c = some token) :
    Spelled before after [c] token := by
  unfold Token.ofSymbol? at h
  split at h
  · subst c
    cases h
    exact .openParen
  · split at h
    · subst c
      cases h
      exact .closeParen
    · split at h
      · subst c
        cases h
        exact .equals
      · rcases Option.map_eq_some_iff.mp h with ⟨op, hop, rfl⟩
        rw [Operator.ofSymbol?_eq_some_iff.mp hop]
        exact .operator

theorem spelled_of_isNameStart {first : Char} {others : List Char}
    (hfirst : isNameStart first = true)
    (hothers : forall c, c ∈ others -> isNameChar c = true)
    (hafter : forall c, after.head? = some c -> isNameChar c = false) :
    Spelled before after (first :: others) (.ofWord (first :: others)) := by
  have hends : forall c, after.head? = some c -> EndsWord c := by
    intro c hc
    exact isNameChar_eq_false_iff.mp (hafter c hc)
  unfold Token.ofWord
  split
  · rename_i hdefine
    rw [hdefine]
    exact .define hends
  · rename_i hname
    exact .name hfirst
      (fun c hc => isNameChar_iff.mp (hothers c hc)) hends hname

theorem spelled_of_isNumeralChar {first : Char} {others : List Char}
    (hfirst : isNumeralChar first = true)
    (hothers : forall c, c ∈ others -> isNumeralChar c = true)
    (hbefore : forall c, before.getLast? = some c -> isNumeralChar c = false)
    (hafter : forall c, after.head? = some c -> isNumeralChar c = false) :
    Spelled before after (first :: others)
      (.number (.ofNumeral (first :: others))) := by
  apply Spelled.number (List.cons_ne_nil first others)
  · intro c hc
    rcases List.mem_cons.mp hc with rfl | hlater
    · exact hfirst
    · exact hothers c hlater
  · exact fun c hc => Bool.eq_false_iff.mp (hbefore c hc)
  · exact fun c hc => Bool.eq_false_iff.mp (hafter c hc)

theorem Spelled.cases (h : Spelled before after slice token) :
    (exists first others, slice = first :: others ∧ isNameStart first = true ∧
      (forall c, c ∈ others -> isNameChar c = true) ∧
      (forall c, after.head? = some c -> isNameChar c = false) ∧
          token = .ofWord slice) ∨
    (exists first others, slice = first :: others ∧ isNumeralChar first = true ∧
      (forall c, c ∈ others -> isNumeralChar c = true) ∧
      (forall c, after.head? = some c -> isNumeralChar c = false) ∧
      token = .number (.ofNumeral slice)) ∨
    exists c, slice = [c] ∧ Token.ofSymbol? c = some token := by
  cases h with
  | define hafter =>
      have hothers : forall c, c ∈ ['e', 'f'] -> isNameChar c = true := by
        intro c hc
        rcases List.mem_cons.mp hc with rfl | hc
        · rfl
        · rw [List.mem_singleton.mp hc]
          rfl
      refine Or.inl ⟨'d', ['e', 'f'], rfl, rfl, hothers, ?_, rfl⟩
      intro c hc
      exact isNameChar_eq_false_iff.mpr (hafter c hc)
  | name hfirst hothers hafter hname =>
      refine Or.inl ⟨_, _, rfl, hfirst, ?_, ?_, ?_⟩
      · intro c hc
        exact isNameChar_iff.mpr (hothers c hc)
      · intro c hc
        exact isNameChar_eq_false_iff.mpr (hafter c hc)
      · rw [Token.ofWord, if_neg hname]
  | number hne hdigits _ hafter =>
      rcases List.exists_cons_of_ne_nil hne with ⟨first, others, rfl⟩
      refine Or.inr (Or.inl ⟨first, others, rfl,
        hdigits first List.mem_cons_self, ?_, ?_, rfl⟩)
      · intro c hc
        exact hdigits c (List.mem_cons_of_mem _ hc)
      · intro c hc
        exact Bool.eq_false_iff.mpr (hafter c hc)
  | openParen => exact Or.inr (Or.inr ⟨_, rfl, rfl⟩)
  | closeParen => exact Or.inr (Or.inr ⟨_, rfl, rfl⟩)
  | equals => exact Or.inr (Or.inr ⟨_, rfl, rfl⟩)
  | operator => exact Or.inr (Or.inr ⟨_, rfl, ofSymbol?_symbol _⟩)

theorem Spelled.exists_cons (h : Spelled before after slice token) :
    exists c rest, slice = c :: rest ∧ StartsToken c := by
  rcases h.cases with
    ⟨first, others, hslice, hfirst, _⟩ | ⟨first, others, hslice, hfirst, _⟩ |
    ⟨c, hslice, hc⟩
  · exact ⟨first, others, hslice, startsToken_iff.mpr (Or.inl hfirst)⟩
  · exact ⟨first, others, hslice, startsToken_of_isNumeralChar hfirst⟩
  · exact ⟨c, [], hslice,
      startsToken_iff.mpr (Or.inr (Or.inr (by rw [hc]; rfl)))⟩

end Token

theorem eq_takeWhile_of_append {p : Char -> Bool} {run after : List Char}
    (hrun : forall c, c ∈ run -> p c = true)
    (hafter : forall c, after.head? = some c -> p c = false) :
    (run ++ after).takeWhile p = run ∧ (run ++ after).dropWhile p = after := by
  rw [List.takeWhile_append_of_pos hrun, List.dropWhile_append_of_pos hrun]
  cases after with
  | nil => simp
  | cons c after => simp [hafter c rfl]

namespace Token.Spelled

variable {before after slice : List Char} {token : Token} {c : Char}
  {rest : List Char}

theorem eq_of_isNameStart (h : Spelled before after slice token)
    (hc : isNameStart c = true) (htext : c :: rest = slice ++ after) :
    slice = c :: rest.takeWhile isNameChar ∧ after = rest.dropWhile isNameChar ∧
      token = .ofWord slice := by
  rcases h.cases with ⟨first, others, rfl, _, hothers, hafter, htoken⟩ |
    ⟨first, others, rfl, hfirst, _⟩ | ⟨symbol, rfl, hsymbol⟩
  · rw [List.cons_append, List.cons.injEq] at htext
    rcases htext with ⟨rfl, rfl⟩
    rcases eq_takeWhile_of_append hothers hafter with ⟨htake, hdrop⟩
    rw [htake, hdrop]
    exact ⟨rfl, rfl, htoken⟩
  · rw [List.cons_append, List.cons.injEq] at htext
    rw [← htext.left, isNumeralChar_of_isNameStart hc] at hfirst
    cases hfirst
  · rw [List.cons_append, List.cons.injEq] at htext
    rw [← htext.left, Token.ofSymbol?_eq_none (Or.inl hc)] at hsymbol
    cases hsymbol

theorem eq_of_isNumeralChar (h : Spelled before after slice token)
    (hc : isNumeralChar c = true) (htext : c :: rest = slice ++ after) :
    slice = c :: rest.takeWhile isNumeralChar ∧
    after = rest.dropWhile isNumeralChar ∧
      token = .number (.ofNumeral slice) := by
  rcases h.cases with ⟨first, others, rfl, hfirst, _⟩ |
    ⟨first, others, rfl, _, hothers, hafter, htoken⟩ | ⟨symbol, rfl, hsymbol⟩
  · rw [List.cons_append, List.cons.injEq] at htext
    have hdigit := isNumeralChar_of_isNameStart hfirst
    rw [← htext.left, hc] at hdigit
    cases hdigit
  · rw [List.cons_append, List.cons.injEq] at htext
    rcases htext with ⟨rfl, rfl⟩
    rcases eq_takeWhile_of_append hothers hafter with ⟨htake, hdrop⟩
    rw [htake, hdrop]
    exact ⟨rfl, rfl, htoken⟩
  · rw [List.cons_append, List.cons.injEq] at htext
    rw [← htext.left, Token.ofSymbol?_eq_none (Or.inr hc)] at hsymbol
    cases hsymbol

theorem eq_of_ofSymbol? {symbol : Token} (h : Spelled before after slice token)
    (hc : Token.ofSymbol? c = some symbol)
    (htext : c :: rest = slice ++ after) :
    slice = [c] ∧ after = rest ∧ token = symbol := by
  rcases h.cases with
    ⟨first, others, rfl, hfirst, _⟩ | ⟨first, others, rfl, hfirst, _⟩ |
    ⟨other, rfl, hother⟩
  · rw [List.cons_append, List.cons.injEq] at htext
    rw [htext.left, Token.ofSymbol?_eq_none (Or.inl hfirst)] at hc
    cases hc
  · rw [List.cons_append, List.cons.injEq] at htext
    rw [htext.left, Token.ofSymbol?_eq_none (Or.inr hfirst)] at hc
    cases hc
  · rw [List.cons_append, List.nil_append, List.cons.injEq] at htext
    rcases htext with ⟨rfl, rfl⟩
    rw [hc, Option.some.injEq] at hother
    exact ⟨rfl, rfl, hother.symm⟩

end Token.Spelled

end LineCalc
