import LineCalc.Binary64.Literal
import LineCalc.Proofs.Binary64.Text
import LineCalc.Proofs.Decimal.Notation
import LineCalc.Proofs.Json.Numbers

/-!
# Texts of numbers in JSON

The text of a finite number in JSON has a digit in front of any point and no
zero in front of other digits, so it is a number of JSON, and it is read back as
the number.
-/

namespace LineCalc

open JsonToken

namespace Decimal

variable {d : Decimal} {digits text : List Char} {exponent : Int}

/-!
## Parts of texts
-/

theorem isDigits_digits (d : Decimal) : IsDigits d.digits :=
  isDigits_toDigits d.significand

theorem exponent_eq_zero_of_normal {significand : Nat}
    (h : (normal significand exponent).significand = 0) :
    (normal significand exponent).exponent = 0 := by
  fun_induction normal significand exponent with
  | case1 => rfl
  | case2 _ _ _ _ ih => exact ih h
  | case3 _ _ hne => exact absurd h hne

theorem isWhole_append {zeros : Nat} (hdigits : IsDigits digits)
    (hhead : digits.head? ≠ some '0') :
    IsWhole (digits ++ List.replicate zeros '0') := by
  rcases List.exists_cons_of_ne_nil hdigits.left with ⟨first, others, rfl⟩
  refine .digits (fun hfirst => hhead (congrArg some hfirst))
    ⟨List.cons_ne_nil _ _, ?_⟩
  intro c hc
  exact (List.mem_append.mp hc).elim (hdigits.right c) isDigit_of_mem_zeros

theorem isWhole_extended (h : d.significand = 0 -> d.exponent = 0) :
    IsWhole d.extended := by
  by_cases hzero : d.significand = 0
  · rw [extended, digits, hzero, h hzero]
    exact .zero
  · exact isWhole_append d.isDigits_digits (head?_toDigits_ne_zero hzero)

theorem isWhole_singleton {c : Char} (h : c.isDigit = true) : IsWhole [c] := by
  by_cases hzero : c = '0'
  · rw [hzero]
    exact .zero
  · exact .digits hzero (isDigits_singleton h)

def IsPlainNumber (text : List Char) : Prop :=
  exists whole fraction, text = whole ++ fraction ∧ IsWhole whole ∧
    IsFraction fraction

theorem isPlainNumber_of_plain (h : Plain digits exponent text)
    (hdigits : IsDigits digits) (hhead : digits.head? ≠ some '0') :
    IsPlainNumber text := by
  cases h with
  | whole _ zeros =>
      exact ⟨_, [], (List.append_nil _).symm,
        isWhole_append hdigits hhead, .none⟩
  | point whole fraction hwhole hfraction =>
      rw [List.head?_append_of_ne_nil _ hwhole] at hhead
      have hfront : IsWhole (whole ++ List.replicate 0 '0') :=
        isWhole_append ⟨hwhole,
          fun c hc => hdigits.right c (List.mem_append_left _ hc)⟩ hhead
      rw [List.replicate_zero, List.append_nil] at hfront
      exact ⟨whole, _, rfl, hfront,
        .point ⟨hfraction,
          fun c hc => hdigits.right c (List.mem_append_right _ hc)⟩⟩
  | fraction _ zeros =>
      refine ⟨['0'], _, rfl, .zero, .point ⟨?_, fun c hc => ?_⟩⟩
      · exact List.append_ne_nil_of_right_ne_nil _ hdigits.left
      · exact (List.mem_append.mp hc).elim isDigit_of_mem_zeros
          (hdigits.right c)

theorem isPlainNumber_mantissa (d : Decimal) : IsPlainNumber d.mantissa := by
  have hdigit := d.isDigits_digits.right
  rcases d.digits_cases with ⟨first, hdigits⟩ | ⟨first, second, others, hdigits⟩
  · rw [hdigits] at hdigit
    rw [mantissa_single hdigits]
    exact ⟨[first], [], rfl,
      isWhole_singleton (hdigit _ List.mem_cons_self), .none⟩
  · rw [hdigits] at hdigit
    rw [mantissa_point hdigits]
    refine ⟨[first], _, rfl, isWhole_singleton (hdigit _ List.mem_cons_self),
      .point ⟨List.cons_ne_nil _ _,
        fun c hc => hdigit c (List.mem_cons_of_mem _ hc)⟩⟩

theorem isExponent_power (exponent : Int) : IsExponent (power exponent) := by
  have hdigits := isDigits_toDigits exponent.natAbs
  rcases Int.lt_or_le exponent 0 with hneg | hnonneg
  · rw [power, if_pos hneg]
    exact @IsExponent.power 'e' ['-'] _ (by decide) (by decide) hdigits
  · rw [power, if_neg (Int.not_lt.mpr hnonneg)]
    exact @IsExponent.power 'e' ['+'] _ (by decide) (by decide) hdigits

/-!
## Reading literals
-/

theorem isDigits_of_isWhole {whole : List Char} (h : IsWhole whole) :
    IsDigits whole := by
  cases h with
  | zero => exact isDigits_singleton rfl
  | digits _ hdigits => exact hdigits

theorem IsPlainNumber.isNumeralChar (h : IsPlainNumber text) :
    forall c, c ∈ text -> isNumeralChar c = true := by
  rcases h with ⟨whole, fraction, rfl, hwhole, hfraction⟩
  intro c hc
  rcases List.mem_append.mp hc with hc | hc
  · exact isNumeralChar_of_isDigit ((isDigits_of_isWhole hwhole).right c hc)
  · cases hfraction with
    | none => cases hc
    | point hdigits =>
        rcases List.mem_cons.mp hc with rfl | hc
        · rfl
        · exact isNumeralChar_of_isDigit (hdigits.right c hc)

theorem IsPlainNumber.exists_ofNumeral? (h : IsPlainNumber text) :
    exists d, ofNumeral? text = some d := by
  rcases h with ⟨whole, fraction, rfl, hwhole, hfraction⟩
  have hdigits := isDigits_of_isWhole hwhole
  cases hfraction with
  | none =>
      rw [List.append_nil]
      exact ⟨_, ofNumeral?_digits hdigits.left hdigits.right⟩
  | point hbehind =>
      refine ⟨_,
        ofNumeral?_point (List.append_ne_nil_of_left_ne_nil hdigits.left _) ?_⟩
      exact fun c hc =>
        (List.mem_append.mp hc).elim (hdigits.right c) (hbehind.right c)

inductive IsLiteral : List Char -> Prop
  | plain {text : List Char} :
      IsPlainNumber text ->
      IsLiteral text
  | scaled {text : List Char} (exponent : Int) :
      IsPlainNumber text ->
      IsLiteral (text ++ power exponent)

theorem IsLiteral.exists_parts (h : IsLiteral text) :
    exists front back, IsPlainNumber front ∧ IsExponent back ∧
      (forall c, back.head? = some c -> c = 'e') ∧ text = front ++ back := by
  cases h with
  | plain h => exact ⟨text, [], h, .none, by simp, (List.append_nil _).symm⟩
  | scaled exponent h =>
      exact ⟨_, power exponent, h, isExponent_power exponent,
        by simp [power], rfl⟩

theorem IsLiteral.isNumber {sign : List Char} (hsign : sign ∈ [[], ['-']])
    (h : IsLiteral text) :
    IsNumber (sign ++ text) := by
  rcases h.exists_parts with
    ⟨_, back, ⟨whole, fraction, rfl, hwhole, hfraction⟩, hback, _, rfl⟩
  have hnumber := IsNumber.parts hsign hwhole hfraction hback
  rwa [List.append_assoc, List.append_assoc,
    ← List.append_assoc whole] at hnumber

theorem IsLiteral.takeWhile (h : IsLiteral text) :
    IsPlainNumber (text.takeWhile (· ≠ 'e')) := by
  rcases h.exists_parts with ⟨front, back, hfront, _, hback, rfl⟩
  have htake := (eq_takeWhile_of_append
    (fun c hc => Numeral.ne_e_of_isNumeralChar (hfront.isNumeralChar c hc))
    (fun c hc => decide_eq_false (not_not.mpr (hback c hc)))).left
  rwa [htake]

theorem IsLiteral.head?_ne_minus (h : IsLiteral text) :
    text.head? ≠ some '-' := by
  rcases h.exists_parts with
    ⟨_, back, ⟨whole, fraction, rfl, hwhole, _⟩, _, _, rfl⟩
  have hdigits := isDigits_of_isWhole hwhole
  rw [List.append_assoc, List.head?_append_of_ne_nil _ hdigits.left]
  intro hhead
  cases hdigits.right _ (List.mem_of_head? hhead)

theorem IsLiteral.exists_ofScaled? (h : IsLiteral text) :
    exists d, ofScaled? text = some d ∧ d.value = Numeral.scaledValue text := by
  rcases h.takeWhile.exists_ofNumeral? with ⟨d, hd⟩
  refine ⟨_, by rw [ofScaled?, hd]; rfl, ?_⟩
  rw [Numeral.scaledValue, Numeral.value_of_ofNumeral? hd, value, value,
    zpow_add₀ (by norm_num), mul_assoc]

theorem isDigit_of_mem_extended_zero {c : Char} (hc : c ∈ d.extended ++ ['0']) :
    c.isDigit = true := by
  rcases List.mem_append.mp hc with hc | hc
  · exact isDigit_of_mem_extended hc
  · rw [List.mem_singleton.mp hc]
    rfl

theorem ofNumeral?_extended_zero (d : Decimal) :
    ofNumeral? (d.extended ++ '.' :: ['0']) =
      some ⟨powerOfTen d.exponent.toNat * d.significand * 10, -1⟩ := by
  have hread : Nat.ofDigitChars 10 (d.extended ++ ['0']) 0 =
      powerOfTen d.exponent.toNat * d.significand * 10 := by
    rw [Nat.ofDigitChars_append, ofDigitChars_extended, Nat.ofDigitChars_cons,
      Nat.ofDigitChars_nil]
    omega
  rw [ofNumeral?_point (List.append_ne_nil_of_right_ne_nil _ (by simp))
    fun _ => isDigit_of_mem_extended_zero, hread]
  rfl

theorem scaledValue_whole (h : 0 ≤ d.exponent) :
    Numeral.scaledValue (d.positional ++ ['.', '0']) = d.value := by
  have hchars : forall c, c ∈ d.extended ++ ['.', '0'] ->
      isNumeralChar c = true := by
    intro c hc
    rw [List.mem_append, List.mem_cons, or_left_comm, ← List.mem_append] at hc
    rcases hc with rfl | hc
    · rfl
    · exact isNumeralChar_of_isDigit (isDigit_of_mem_extended_zero hc)
  have hexponent : (-d.exponent).toNat = 0 := by omega
  rw [positional_of_nonneg h, Numeral.scaledValue_of_numeral hchars,
    Numeral.value_of_ofNumeral? d.ofNumeral?_extended_zero, value, value,
    ten_zpow_eq d.exponent, hexponent, powerOfTen_zero]
  push_cast
  ring

/-!
## JSON texts
-/

def literal (d : Decimal) : List Char :=
  if -5 ≤ d.leadingExponent ∧ d.leadingExponent ≤ 15 then
    d.positional ++ if 0 ≤ d.exponent then ['.', '0'] else []
  else
    d.scientific

theorem isLiteral_literal (hzero : d.significand = 0 -> d.exponent = 0) :
    IsLiteral d.literal := by
  unfold literal
  split
  · by_cases hwhole : 0 ≤ d.exponent
    · rw [if_pos hwhole, positional_of_nonneg hwhole]
      exact .plain ⟨_, _, rfl, isWhole_extended hzero,
        .point (isDigits_singleton rfl)⟩
    · have hne : d.significand ≠ 0 := fun heq => hwhole (hzero heq).ge
      rw [if_neg hwhole, List.append_nil]
      exact .plain (isPlainNumber_of_plain d.plain_positional d.isDigits_digits
        (head?_toDigits_ne_zero hne))
  · exact .scaled _ d.isPlainNumber_mantissa

theorem scaledValue_literal (d : Decimal) :
    Numeral.scaledValue d.literal = d.value := by
  unfold literal
  split
  · by_cases hwhole : 0 ≤ d.exponent
    · rw [if_pos hwhole, scaledValue_whole hwhole]
    · rw [if_neg hwhole, List.append_nil, Numeral.scaledValue_positional]
  · exact Numeral.scaledValue_scientific d

end Decimal

namespace Binary64

variable {negative : Bool} {m : Magnitude} {text : List Char}

theorem jsonChars_of_ne_infinity (h : m ≠ .infinity) :
    (signed negative m).jsonChars =
      withSign negative (m.shortest .toEven).literal := by
  rw [jsonChars, if_neg h]
  rfl

theorem isLiteral_shortest (m : Magnitude) :
    Decimal.IsLiteral (m.shortest .toEven).literal :=
  Decimal.isLiteral_literal Decimal.exponent_eq_zero_of_normal

theorem isNumber_withSign (h : Decimal.IsLiteral text) :
    IsNumber (withSign negative text) := by
  cases negative with
  | false =>
      have hsign : [] ∈ [[], ['-']] := List.mem_cons_self
      exact h.isNumber hsign
  | true =>
      have hsign : ['-'] ∈ [[], ['-']] :=
        List.mem_cons_of_mem _ List.mem_cons_self
      exact h.isNumber hsign

theorem ofLiteral?_withSign (h : text.head? ≠ some '-') :
    ofLiteral? (withSign negative text) =
      (Decimal.ofScaled? text).map fun d => signed negative d.magnitude := by
  cases negative with
  | true => rfl
  | false =>
      rw [withSign_false]
      unfold ofLiteral?
      split
      · exact absurd rfl h
      · rfl

variable {x : Binary64}

theorem isNumber_jsonChars (h : x.IsFinite) : IsNumber x.jsonChars := by
  cases x with
  | nan => exact h.elim
  | signed negative m =>
      rw [jsonChars_of_ne_infinity h]
      exact isNumber_withSign (isLiteral_shortest m)

/-- The JSON text of a finite number is read back as the number. -/
theorem ofLiteral?_jsonChars (h : x.IsFinite) :
    ofLiteral? x.jsonChars = some x := by
  cases x with
  | nan => exact h.elim
  | signed negative m =>
      have hliteral := isLiteral_shortest m
      rcases hliteral.exists_ofScaled? with ⟨d, hd, hvalue⟩
      rw [Decimal.scaledValue_literal] at hvalue
      have hmagnitude : d.magnitude = m := by
        rw [Decimal.magnitude_eq_of_value_eq hvalue,
          Magnitude.magnitude_shortest]
      rw [jsonChars_of_ne_infinity h,
        ofLiteral?_withSign hliteral.head?_ne_minus, hd,
        Option.map_some, hmagnitude]

end Binary64

end LineCalc
