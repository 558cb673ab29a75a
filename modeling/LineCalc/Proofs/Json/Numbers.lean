import LineCalc.Json.Spelling
import LineCalc.Proofs.Token.Spelling
import Mathlib.Data.List.Basic

/-!
# Numbers in JSON

The scanner takes a number part by part, each as long as it can be.  So what it
takes is a number, and a number is taken as a whole where no character behind it
makes it longer.
-/

namespace LineCalc

namespace JsonToken

variable {text digits whole fraction exponent literal rest : List Char}
  {c : Char}

/-!
## What is taken
-/

theorem isDigits_of_scanDigits? (h : scanDigits? text = some (digits, rest)) :
    IsDigits digits := by
  refine ⟨(eq_append_of_scanDigits? h).right, fun c hc => ?_⟩
  rw [scanDigits?, Option.ite_none_left_eq_some, Option.some.injEq,
    Prod.mk.injEq] at h
  rw [← h.right.left] at hc
  exact List.mem_takeWhile_imp hc

theorem isWhole_of_scanWhole? (h : scanWhole? text = some (whole, rest)) :
    IsWhole whole := by
  unfold scanWhole? at h
  split at h
  · cases h
    exact .zero
  · rename_i hzero
    have hdigits := isDigits_of_scanDigits? h
    rcases List.exists_cons_of_ne_nil hdigits.left with ⟨first, others, rfl⟩
    refine .digits ?_ hdigits
    rintro rfl
    exact hzero _ (eq_append_of_scanDigits? h).left

theorem isFraction_of_scanFraction?
    (h : scanFraction? text = some (fraction, rest)) :
    IsFraction fraction := by
  unfold scanFraction? at h
  split at h
  · rcases Option.map_eq_some_iff.mp h with ⟨⟨digits, _⟩, hdigits, hparts⟩
    cases hparts
    exact .point (isDigits_of_scanDigits? hdigits)
  · cases h
    exact .none

theorem scanSign_mem (text : List Char) :
    (scanSign text).fst ∈ [[], ['+'], ['-']] := by
  unfold scanSign
  split <;> simp

theorem isExponent_of_scanExponent?
    (h : scanExponent? text = some (exponent, rest)) :
    IsExponent exponent := by
  cases text with
  | nil =>
      cases h
      exact .none
  | cons mark text =>
      rw [scanExponent?] at h
      split at h
      · rename_i hmark
        rcases Option.map_eq_some_iff.mp h with ⟨⟨digits, _⟩, hdigits, hparts⟩
        cases hparts
        exact .power (by simpa using hmark) (scanSign_mem text)
          (isDigits_of_scanDigits? hdigits)
      · cases h
        exact .none

def scanMinus (text : List Char) : List Char × List Char :=
  if text.head? = some '-' then (['-'], text.tail) else ([], text)

theorem scanMinus_mem (text : List Char) :
    (scanMinus text).fst ∈ [[], ['-']] := by
  unfold scanMinus
  split <;> simp

theorem scanJsonNumber?_eq_some_iff :
    scanJsonNumber? text = some (literal, rest) <->
      exists whole behindWhole fraction behindFraction exponent,
        scanWhole? (scanMinus text).snd = some (whole, behindWhole) ∧
        scanFraction? behindWhole = some (fraction, behindFraction) ∧
        scanExponent? behindFraction = some (exponent, rest) ∧
        literal = (scanMinus text).fst ++ whole ++ fraction ++ exponent := by
  have hsplit :
      (if text.head? = some '-' then (['-'], text.tail) else ([], text)) =
      ((scanMinus text).fst, (scanMinus text).snd) := rfl
  simp only [scanJsonNumber?, hsplit, Option.bind_eq_bind,
    Option.bind_eq_some_iff, Option.pure_def, Option.some.injEq, Prod.exists,
    Prod.mk.injEq]
  grind

theorem isNumber_of_scanJsonNumber?
    (h : scanJsonNumber? text = some (literal, rest)) :
    IsNumber literal := by
  rcases scanJsonNumber?_eq_some_iff.mp h with
    ⟨_, _, _, _, _, hwhole, hfraction, hexponent, rfl⟩
  exact .parts (scanMinus_mem text) (isWhole_of_scanWhole? hwhole)
    (isFraction_of_scanFraction? hfraction)
      (isExponent_of_scanExponent? hexponent)

/-!
## How long it is
-/

def EndsNumber (text : List Char) : Prop :=
  forall c, text.head? = some c -> c.isDigit = false ∧ c ∉ ['.', 'e', 'E']

theorem EndsNumber.not_digit (h : EndsNumber rest) :
    forall c, rest.head? = some c -> c.isDigit = false :=
  fun c hc => (h c hc).left

theorem scanDigits?_append (h : IsDigits digits)
    (hrest : forall c, rest.head? = some c -> c.isDigit = false) :
    scanDigits? (digits ++ rest) = some (digits, rest) := by
  rcases eq_takeWhile_of_append h.right hrest with ⟨htake, hdrop⟩
  rw [scanDigits?, htake, hdrop]
  exact if_neg h.left

theorem scanWhole?_append (h : IsWhole whole)
    (hrest : forall c, rest.head? = some c -> c.isDigit = false) :
    scanWhole? (whole ++ rest) = some (whole, rest) := by
  cases h with
  | zero => rfl
  | digits hfirst hdigits =>
      unfold scanWhole?
      split
      · rename_i heq
        cases heq
        exact absurd rfl hfirst
      · exact scanDigits?_append hdigits hrest

theorem scanFraction?_append (h : IsFraction fraction)
    (hrest : forall c, rest.head? = some c -> c.isDigit = false ∧ c ≠ '.') :
    scanFraction? (fraction ++ rest) = some (fraction, rest) := by
  cases h with
  | none =>
      rw [List.nil_append]
      unfold scanFraction?
      split
      · exact absurd rfl (hrest '.' rfl).right
      · rfl
  | point hdigits =>
      rw [List.cons_append, scanFraction?,
        scanDigits?_append hdigits fun c hc => (hrest c hc).left]
      rfl

theorem scanSign_append {sign : List Char} (hsign : sign ∈ [[], ['+'], ['-']])
    (hdigits : IsDigits digits) :
    scanSign (sign ++ (digits ++ rest)) = (sign, digits ++ rest) := by
  rcases List.exists_cons_of_ne_nil hdigits.left with ⟨first, others, rfl⟩
  have hfirst := hdigits.right first List.mem_cons_self
  simp only [List.mem_cons, List.not_mem_nil, or_false] at hsign
  rcases hsign with rfl | rfl | rfl
  · rw [List.nil_append, List.cons_append]
    unfold scanSign
    split
    · rename_i heq
      cases heq
      cases hfirst
    · rename_i heq
      cases heq
      cases hfirst
    · rfl
  · rfl
  · rfl

theorem scanExponent?_append (h : IsExponent exponent)
    (hrest : EndsNumber rest) :
    scanExponent? (exponent ++ rest) = some (exponent, rest) := by
  cases h with
  | none =>
      cases rest with
      | nil => rfl
      | cons c rest =>
          have hmark : ¬ (c = 'e' ∨ c = 'E') := by
            rintro (rfl | rfl)
            · exact (hrest _ rfl).right (by decide)
            · exact (hrest _ rfl).right (by decide)
          rw [List.nil_append, scanExponent?, if_neg hmark]
  | @power mark sign digits hmark hsign hdigits =>
      rw [List.cons_append, List.append_assoc, scanExponent?,
        if_pos (by simpa using hmark), scanSign_append hsign hdigits]
      simp [scanDigits?_append hdigits hrest.not_digit]

theorem scanMinus_append {sign : List Char} (hsign : sign ∈ [[], ['-']])
    (hwhole : IsWhole whole) :
    scanMinus (sign ++ (whole ++ rest)) = (sign, whole ++ rest) := by
  simp only [List.mem_cons, List.not_mem_nil, or_false] at hsign
  rcases hsign with rfl | rfl
  · have hhead : (whole ++ rest).head? ≠ some '-' := by
      intro hc
      cases hwhole with
      | zero => cases hc
      | digits _ hdigits =>
          have hdigit := hdigits.right _ List.mem_cons_self
          rw [Option.some.inj hc] at hdigit
          cases hdigit
    exact if_neg hhead
  · rfl

/-- A number ends in front of whatever is no part of a number. -/
theorem scanJsonNumber?_append (h : IsNumber literal)
    (hrest : EndsNumber rest) :
    scanJsonNumber? (literal ++ rest) = some (literal, rest) := by
  cases h with
  | @parts sign whole fraction exponent hsign hwhole hfraction hexponent =>
      have hbehind : forall c, (exponent ++ rest).head? = some c ->
          c.isDigit = false ∧ c ≠ '.' := by
        intro c hc
        cases hexponent with
        | none =>
            have hends := hrest c hc
            refine ⟨hends.left, ?_⟩
            rintro rfl
            exact hends.right (by decide)
        | power hmark =>
            cases hc
            simp only [List.mem_cons, List.not_mem_nil, or_false] at hmark
            rcases hmark with rfl | rfl <;> decide
      have hdigit : forall c, (fraction ++ (exponent ++ rest)).head? = some c ->
          c.isDigit = false := by
        intro c hc
        cases hfraction with
        | none => exact (hbehind c hc).left
        | point =>
            cases hc
            rfl
      have hsplit : scanMinus (sign ++ whole ++ fraction ++ exponent ++ rest) =
          (sign, whole ++ (fraction ++ (exponent ++ rest))) := by
        simp only [List.append_assoc]
        exact scanMinus_append hsign hwhole
      rw [scanJsonNumber?_eq_some_iff, hsplit]
      exact ⟨whole, _, fraction, _, exponent, scanWhole?_append hwhole hdigit,
        scanFraction?_append hfraction hbehind,
        scanExponent?_append hexponent hrest, rfl⟩

/-!
## Digits of naturals
-/

theorem head?_toDigits_ne_zero {n : Nat} (h : n ≠ 0) :
    (Nat.toDigits 10 n).head? ≠ some '0' := by
  induction n using Nat.strongRecOn with
  | ind n ih =>
      rcases Nat.lt_or_ge n 10 with hlt | hge
      · have hall : forall k, k < 10 -> k ≠ 0 ->
            [k.digitChar].head? ≠ some '0' := by decide
        rw [Nat.toDigits_of_lt_base hlt]
        exact hall n hlt h
      · rw [Nat.toDigits_of_base_le (by decide) hge,
          List.head?_append_of_ne_nil _ Nat.toDigits_ne_nil]
        exact ih (n / 10) (by omega) (by omega)

theorem isDigits_singleton {c : Char} (h : c.isDigit = true) :
    IsDigits [c] := by
  refine ⟨List.cons_ne_nil _ _, fun d hd => ?_⟩
  rwa [List.mem_singleton.mp hd]

theorem isDigits_toDigits (n : Nat) : IsDigits (Nat.toDigits 10 n) :=
  ⟨Nat.toDigits_ne_nil,
    fun _ hc => Nat.isDigit_of_mem_toDigits (by decide) (by decide) hc⟩

theorem isWhole_toDigits (n : Nat) : IsWhole (Nat.toDigits 10 n) := by
  have hdigits := isDigits_toDigits n
  by_cases hzero : n = 0
  · rw [hzero]
    exact .zero
  · have hhead := head?_toDigits_ne_zero hzero
    rcases List.exists_cons_of_ne_nil hdigits.left with ⟨first, others, heq⟩
    rw [heq] at hdigits hhead ⊢
    exact .digits (fun hfirst => hhead (congrArg some hfirst)) hdigits

theorem isNumber_of_isWhole (h : IsWhole whole) : IsNumber whole := by
  have hnumber := @IsNumber.parts [] whole [] [] (by decide) h .none .none
  rwa [List.append_nil, List.append_nil, List.nil_append] at hnumber

end JsonToken

end LineCalc
