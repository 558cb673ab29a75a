import LineCalc.Proofs.Json.Numbers
import Mathlib.Data.List.Chain

/-!
# Scanning JSON

The scanner takes the spelling of one token after the other.  A token's spelling
tells where it ends, but for numbers, and these do not follow each other in a
value.
-/

namespace LineCalc

namespace JsonToken

variable {text body rest : List Char} {units : List Nat}
  {token : JsonToken} {c : Char}

/-!
## Escapes
-/

theorem simpleEscape?_eq_some_iff {unit : Nat} :
    simpleEscape? c = some unit <-> (c, unit) ∈ shortEscapes := by
  constructor
  · intro h
    unfold simpleEscape? at h
    split at h <;> cases h <;> decide
  · intro h
    simp only [shortEscapes, List.mem_cons, List.not_mem_nil, or_false,
      Prod.mk.injEq] at h
    rcases h with
      ⟨rfl, rfl⟩ | ⟨rfl, rfl⟩ | ⟨rfl, rfl⟩ | ⟨rfl, rfl⟩ |
      ⟨rfl, rfl⟩ | ⟨rfl, rfl⟩ | ⟨rfl, rfl⟩ | ⟨rfl, rfl⟩ <;> rfl

theorem hexValue?_eq_some_iff {value : Nat} :
    hexValue? c = some value <-> IsHexDigit c value := by
  constructor
  · intro h
    have hrange : c.toNat < 128 ∧ value < 16 := by
      unfold hexValue? at h
      split at h
      · rename_i hdigit
        have hchar := toNat_of_isDigit hdigit
        cases h
        omega
      · split at h
        · rename_i hsmall
          have hchar : 97 ≤ c.toNat ∧ c.toNat ≤ 102 := hsmall
          cases h
          omega
        · rw [Option.ite_none_right_eq_some] at h
          have hchar : 65 ≤ c.toNat ∧ c.toNat ≤ 70 := h.left
          cases h.right
          omega
    have hall : forall code, code < 128 -> forall n, n < 16 ->
        hexValue? (Char.ofNat code) = some n ->
        Char.ofNat code = n.digitChar ∨
        Char.ofNat code = n.digitChar.toUpper := by
      decide +kernel
    have hdigit := hall c.toNat hrange.left value hrange.right
    rw [Char.ofNat_toNat] at hdigit
    exact ⟨hrange.right, hdigit h⟩
  · rintro ⟨hvalue, hc⟩
    have hall : forall n, n < 16 ->
        hexValue? n.digitChar = some n ∧
        hexValue? n.digitChar.toUpper = some n := by
      decide
    rcases hc with rfl | rfl
    · exact (hall value hvalue).left
    · exact (hall value hvalue).right

theorem hexUnit?_eq_some_iff {a b c d : Char} {unit : Nat} :
    hexUnit? a b c d = some unit <->
      exists i j k l, IsHexDigit a i ∧ IsHexDigit b j ∧ IsHexDigit c k ∧
        IsHexDigit d l ∧
        unit = ((i * 16 + j) * 16 + k) * 16 + l := by
  simp only [hexUnit?, Option.bind_eq_bind, Option.bind_eq_some_iff,
    Option.pure_def, Option.some.injEq, hexValue?_eq_some_iff]
  grind

/-!
## Strings
-/

theorem isBody_of_scanJsonString?
    (h : scanJsonString? text = some (units, rest)) :
    exists body, IsBody units body ∧ text = body ++ '"' :: rest := by
  fun_induction scanJsonString? text generalizing units with
  | case1 => cases h
  | case2 =>
      cases h
      exact ⟨[], .nil, rfl⟩
  | case3 a b c d text ih =>
      simp only [Option.bind_eq_bind, Option.bind_eq_some_iff, Option.pure_def,
        Option.some.injEq, Prod.exists, Prod.mk.injEq] at h
      rcases h with ⟨unit, hunit, units, _, hrest, rfl, rfl⟩
      rcases ih hrest with ⟨body, hbody, rfl⟩
      rcases hexUnit?_eq_some_iff.mp hunit with
        ⟨i, j, k, l, ha, hb, hc, hd, rfl⟩
      exact ⟨_, .hexadecimal ha hb hc hd hbody, rfl⟩
  | case4 c text _ ih =>
      simp only [Option.bind_eq_bind, Option.bind_eq_some_iff, Option.pure_def,
        Option.some.injEq, Prod.exists, Prod.mk.injEq] at h
      rcases h with ⟨unit, hunit, units, _, hrest, rfl, rfl⟩
      rcases ih hrest with ⟨body, hbody, rfl⟩
      exact ⟨_, .short (simpleEscape?_eq_some_iff.mp hunit) hbody, rfl⟩
  | case5 => cases h
  | case6 c text hquote _ hescape hvisible ih =>
      simp only [Option.bind_eq_bind, Option.bind_eq_some_iff, Option.pure_def,
        Option.some.injEq, Prod.exists, Prod.mk.injEq] at h
      rcases h with ⟨units, _, hrest, rfl, rfl⟩
      rcases ih hrest with ⟨body, hbody, rfl⟩
      refine ⟨c :: body, .plain (Nat.not_lt.mp hvisible) hquote ?_ hbody, rfl⟩
      rintro rfl
      cases body with
      | nil => exact hescape _ _ rfl rfl
      | cons d body => exact hescape _ _ rfl rfl

theorem scanJsonString?_plain (hvisible : 0x20 ≤ c.toNat) (hquote : c ≠ '"')
    (hbackslash : c ≠ '\\') (h : scanJsonString? text = some (units, rest)) :
    scanJsonString? (c :: text) = some (units16 c ++ units, rest) := by
  rw [scanJsonString?.eq_def]
  split
  · contradiction
  · rename_i heq
    cases heq
    exact absurd rfl hquote
  · rename_i heq
    cases heq
    exact absurd rfl hbackslash
  · rename_i heq
    cases heq
    exact absurd rfl hbackslash
  · rename_i heq
    cases heq
    rw [if_neg (Nat.not_lt.mpr hvisible), h]
    rfl

theorem scanJsonString?_short {unit : Nat} (hunit : simpleEscape? c = some unit)
    (h : scanJsonString? text = some (units, rest)) :
    scanJsonString? ('\\' :: c :: text) = some (unit :: units, rest) := by
  rw [scanJsonString?.eq_def]
  split
  · contradiction
  · rename_i heq
    cases heq
  · rename_i heq
    cases heq
    cases hunit
  · rename_i heq
    cases heq
    rw [hunit, h]
    rfl
  · rename_i hescape heq
    cases heq
    exact absurd rfl (hescape _ _ rfl)

theorem scanJsonString?_append (h : IsBody units body) :
    scanJsonString? (body ++ '"' :: rest) = some (units, rest) := by
  induction h with
  | nil => rfl
  | plain hvisible hquote hbackslash _ ih =>
      exact scanJsonString?_plain hvisible hquote hbackslash ih
  | short hc _ ih =>
      exact scanJsonString?_short (simpleEscape?_eq_some_iff.mpr hc) ih
  | hexadecimal ha hb hc hd _ ih =>
      have hunit := hexUnit?_eq_some_iff.mpr ⟨_, _, _, _, ha, hb, hc, hd, rfl⟩
      simp only [List.cons_append]
      rw [scanJsonString?, hunit, ih]
      rfl

/-!
## Tokens
-/

theorem exists_spelled_of_scan? (h : scan? text = some (token, rest)) :
    exists word, Spelled token word ∧ text = word ++ rest := by
  unfold scan? at h
  split at h
  case h_10 =>
    rcases Option.map_eq_some_iff.mp h with ⟨⟨units, _⟩, hunits, hparts⟩
    cases hparts
    rcases isBody_of_scanJsonString? hunits with ⟨body, hbody, rfl⟩
    exact ⟨_, .string hbody, by simp⟩
  case h_11 =>
    rcases Option.map_eq_some_iff.mp h with ⟨⟨literal, _⟩, hliteral, hparts⟩
    cases hparts
    exact ⟨literal, .number (isNumber_of_scanJsonNumber? hliteral),
      (eq_append_of_scanJsonNumber? hliteral).left⟩
  all_goals
    cases h
    exact ⟨_, by constructor, rfl⟩

theorem IsNumber.exists_cons {literal : List Char} (h : IsNumber literal) :
    exists first others, literal = first :: others ∧
      (first = '-' ∨ first.isDigit = true) := by
  cases h with
  | @parts sign whole fraction exponent hsign hwhole =>
      have hdigit : exists first others, whole = first :: others ∧
          first.isDigit = true := by
        cases hwhole with
        | zero => exact ⟨_, _, rfl, rfl⟩
        | digits _ hdigits =>
            exact ⟨_, _, rfl, hdigits.right _ List.mem_cons_self⟩
      rcases hdigit with ⟨first, others, rfl, hfirst⟩
      simp only [List.mem_cons, List.not_mem_nil, or_false] at hsign
      rcases hsign with rfl | rfl
      · exact ⟨first, others ++ fraction ++ exponent, by simp, Or.inr hfirst⟩
      · exact ⟨'-', first :: others ++ fraction ++ exponent,
          by simp, Or.inl rfl⟩

theorem scan?_of_digit (h : c = '-' ∨ c.isDigit = true) :
    scan? (c :: text) =
      (scanJsonNumber? (c :: text)).map fun (literal, rest) =>
        (number literal, rest) := by
  rw [scan?.eq_def]
  split
  case h_11 => rfl
  all_goals
    rename_i heq
    cases heq
    rcases h with h | h <;> cases h

theorem scan?_append {word : List Char} (h : Spelled token word)
    (hrest : forall literal, token = .number literal -> EndsNumber rest) :
    scan? (word ++ rest) = some (token, rest) := by
  cases h with
  | number hnumber =>
      have hscan := scanJsonNumber?_append hnumber (hrest _ rfl)
      rcases hnumber.exists_cons with ⟨first, others, rfl, hfirst⟩
      rw [List.cons_append] at hscan ⊢
      rw [scan?_of_digit hfirst, hscan]
      rfl
  | @string units body hbody =>
      have hquote : '"' :: (body ++ ['"']) ++ rest =
          '"' :: (body ++ '"' :: rest) := by simp
      rw [hquote, scan?, scanJsonString?_append hbody]
      rfl
  | _ => rfl

/-!
## Texts
-/

theorem isJsonBlank_iff :
    isJsonBlank c = true <-> c ∈ [' ', '\t', '\n', '\r'] := by
  simp [isJsonBlank, or_assoc]

theorem isBlanks_nil : IsBlanks [] :=
  fun _ hc => absurd hc List.not_mem_nil

theorem Spelled.before {tokens : List JsonToken} {word : List Char}
    (hword : Spelled token word) (htext : SpelledAll tokens text) :
    SpelledAll (token :: tokens) (word ++ text) :=
  .cons isBlanks_nil hword htext

theorem SpelledAll.blanks {tokens : List JsonToken} {blanks : List Char}
    (hblanks : IsBlanks blanks) (h : SpelledAll tokens text) :
    SpelledAll tokens (blanks ++ text) := by
  have hboth : forall {others : List Char}, IsBlanks others ->
      IsBlanks (blanks ++ others) :=
    fun hothers c hc => (List.mem_append.mp hc).elim (hblanks c) (hothers c)
  cases h with
  | nil hothers => exact .nil (hboth hothers)
  | cons hothers hword htext =>
      rw [← List.append_assoc]
      exact .cons (hboth hothers) hword htext

theorem SpelledAll.append {left right : List JsonToken} {front back : List Char}
    (hleft : SpelledAll left front) (hright : SpelledAll right back) :
    SpelledAll (left ++ right) (front ++ back) := by
  induction hleft with
  | nil hblanks => exact hright.blanks hblanks
  | cons hblanks hword _ ih =>
      rw [List.append_assoc, List.append_assoc]
      exact .cons hblanks hword ih

theorem spelledAll_of_scanAll? {tokens : List JsonToken}
    (h : scanAll? text = some tokens) :
    SpelledAll tokens text := by
  fun_induction scanAll? text generalizing tokens with
  | case1 =>
      cases h
      exact .nil isBlanks_nil
  | case2 c text hblank ih =>
      have hblanks : IsBlanks [c] := by
        intro d hd
        rw [List.mem_singleton.mp hd]
        exact isJsonBlank_iff.mp hblank
      exact SpelledAll.blanks hblanks (ih h)
  | case3 => cases h
  | case4 c text _ token remaining hfound ih =>
      rcases Option.map_eq_some_iff.mp h with ⟨others, hothers, rfl⟩
      rcases exists_spelled_of_scan? hfound with ⟨word, hword, htext⟩
      rw [htext]
      exact hword.before (ih hothers)

theorem scanAll?_blanks {blanks : List Char} (h : IsBlanks blanks) :
    scanAll? (blanks ++ text) = scanAll? text := by
  induction blanks with
  | nil => rfl
  | cons c blanks ih =>
      have hblank := isJsonBlank_iff.mpr (h c List.mem_cons_self)
      rw [List.cons_append, scanAll?, if_pos hblank]
      exact ih fun d hd => h d (List.mem_cons_of_mem _ hd)

/-- Two tokens whose spellings may stand side by side. -/
def Parted (left right : JsonToken) : Prop :=
  forall literal other, left = .number literal -> right ≠ .number other

theorem Spelled.exists_cons {word : List Char} (h : Spelled token word) :
    exists first others, word = first :: others ∧
      isJsonBlank first = false := by
  cases h with
  | number hnumber =>
      rcases hnumber.exists_cons with ⟨first, others, rfl, rfl | hdigit⟩
      · exact ⟨_, _, rfl, rfl⟩
      · have hrange := toNat_of_isDigit hdigit
        refine ⟨first, others, rfl, ?_⟩
        rw [← Bool.not_eq_true, isJsonBlank_iff]
        intro hblank
        simp only [List.mem_cons, List.not_mem_nil, or_false] at hblank
        rcases hblank with rfl | rfl | rfl | rfl <;> cases hdigit
  | _ => exact ⟨_, _, rfl, rfl⟩

theorem endsNumber_of_isBlanks {blanks : List Char} (h : IsBlanks blanks) :
    EndsNumber blanks := by
  intro c hc
  have hblank := h c (List.mem_of_mem_head? hc)
  simp only [List.mem_cons, List.not_mem_nil, or_false] at hblank
  rcases hblank with rfl | rfl | rfl | rfl <;> decide

theorem Spelled.endsNumber {word : List Char} (h : Spelled token word)
    (hnumber : forall literal, token ≠ .number literal) :
    EndsNumber (word ++ rest) := by
  cases h with
  | number => exact absurd rfl (hnumber _)
  | _ =>
      intro c hc
      cases hc
      decide

theorem SpelledAll.endsNumber {literal : List Char} {tokens : List JsonToken}
    (h : SpelledAll tokens text)
    (hparted : (number literal :: tokens).IsChain Parted) :
    EndsNumber text := by
  cases h with
  | nil hblanks => exact endsNumber_of_isBlanks hblanks
  | @cons token tokens blanks word text hblanks hword =>
      cases blanks with
      | nil =>
          have hfirst := (List.isChain_cons_cons.mp hparted).left
          exact hword.endsNumber fun other => hfirst literal other rfl
      | cons c blanks =>
          intro d hd
          exact endsNumber_of_isBlanks hblanks d hd

theorem scanAll?_append {word : List Char} {tokens : List JsonToken}
    (hword : Spelled token word)
    (hscan : scan? (word ++ text) = some (token, text))
    (htext : scanAll? text = some tokens) :
    scanAll? (word ++ text) = some (token :: tokens) := by
  rcases hword.exists_cons with ⟨first, others, rfl, hfirst⟩
  rw [List.cons_append] at hscan ⊢
  rw [scanAll?, if_neg (by rw [hfirst]; exact Bool.false_ne_true)]
  split
  · rename_i hnone
    rw [hscan] at hnone
    cases hnone
  · rename_i hsome
    rw [hscan] at hsome
    cases hsome
    rw [htext]
    rfl

/-- Spellings are scanned as the tokens that they spell, if numbers stand
apart. -/
theorem scanAll?_of_spelledAll {tokens : List JsonToken}
    (h : SpelledAll tokens text) (hparted : tokens.IsChain Parted) :
    scanAll? text = some tokens := by
  induction h with
  | nil hblanks =>
      have hskip := @scanAll?_blanks [] _ hblanks
      rw [List.append_nil] at hskip
      rw [hskip, scanAll?]
  | @cons token tokens blanks word text hblanks hword htext ih =>
      rw [scanAll?_blanks hblanks]
      refine scanAll?_append hword (scan?_append hword ?_) (ih hparted.tail)
      rintro literal rfl
      exact htext.endsNumber hparted

end JsonToken

end LineCalc
