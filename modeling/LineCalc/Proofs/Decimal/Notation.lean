import LineCalc.Proofs.Decimal.Decoding
import LineCalc.Proofs.Decimal.Grid

/-!
# Notations of decimals

The positional and the exponent text of a decimal are made of its digits, and
both have its value.  Only the latter has an `e`, so no text is of both kinds.
-/

namespace LineCalc

namespace Decimal

variable {d : Decimal} {c : Char} {text : List Char} {exponent : Int}

theorem length_digits_pos (d : Decimal) : 0 < d.digits.length :=
  Nat.length_toDigits_pos

/-!
## Positional texts
-/

theorem plain_of_nonneg (h : 0 ≤ d.exponent) :
    Plain d.digits d.leadingExponent d.positional := by
  have hexponent : d.leadingExponent =
      d.digits.length + d.exponent.toNat - 1 := by
    unfold leadingExponent
    omega
  rw [positional_of_nonneg h, hexponent]
  exact .whole _ _

theorem plain_of_places_lt (h : d.exponent < 0)
    (hplaces : (-d.exponent).toNat < d.digits.length) :
    Plain d.digits d.leadingExponent d.positional := by
  rcases exists_positional_of_neg h with
    ⟨whole, fraction, htext, hparts, hlength⟩
  have hzeros : (-d.exponent).toNat + 1 - d.digits.length = 0 := by omega
  rw [padded, hzeros, List.replicate_zero, List.nil_append] at hparts
  have hdigits := congrArg List.length hparts
  rw [List.length_append] at hdigits
  have hexponent : d.leadingExponent = whole.length - 1 := by
    unfold leadingExponent
    omega
  rw [htext, hexponent, ← hparts]
  refine .point whole fraction ?_ ?_
  · exact List.ne_nil_of_length_pos (by omega)
  · exact List.ne_nil_of_length_pos (by omega)

theorem plain_of_le_places (h : d.exponent < 0)
    (hplaces : d.digits.length ≤ (-d.exponent).toNat) :
    Plain d.digits d.leadingExponent d.positional := by
  rcases Nat.exists_eq_add_of_le hplaces with ⟨zeros, hzeros⟩
  have hpadded : d.padded = '0' :: (List.replicate zeros '0' ++ d.digits) := by
    have hcount : (-d.exponent).toNat + 1 - d.digits.length = zeros + 1 := by
      omega
    rw [padded, hcount, List.replicate_succ, List.cons_append]
  have hwhole : d.padded.length - (-d.exponent).toNat = 1 := by
    rw [hpadded, List.length_cons, List.length_append, List.length_replicate]
    omega
  have htext : d.positional =
      '0' :: '.' :: (List.replicate zeros '0' ++ d.digits) := by
    have hsplit : d.positional =
        d.padded.take (d.padded.length - (-d.exponent).toNat) ++
          '.' :: d.padded.drop (d.padded.length - (-d.exponent).toNat) :=
      if_neg (Int.not_le.mpr h)
    rw [hsplit, hwhole, hpadded]
    rfl
  have hexponent : d.leadingExponent = -(zeros + 1) := by
    unfold leadingExponent
    omega
  rw [htext, hexponent]
  exact .fraction _ _

theorem plain_positional (d : Decimal) :
    Plain d.digits d.leadingExponent d.positional := by
  rcases Int.lt_or_le d.exponent 0 with hneg | hnonneg
  · rcases Nat.lt_or_ge (-d.exponent).toNat d.digits.length with hlt | hge
    · exact plain_of_places_lt hneg hlt
    · exact plain_of_le_places hneg hge
  · exact plain_of_nonneg hnonneg

/-!
## Exponent texts
-/

def mantissa (d : Decimal) : List Char :=
  d.digits.take 1 ++ if d.digits.drop 1 = [] then [] else '.' :: d.digits.drop 1

theorem scientific_eq (d : Decimal) :
    d.scientific = d.mantissa ++ power d.leadingExponent := rfl

theorem mantissa_single (h : d.digits = [c]) : d.mantissa = [c] := by
  rw [mantissa, h]
  rfl

theorem mantissa_point {second : Char} {others : List Char}
    (h : d.digits = c :: second :: others) :
    d.mantissa = c :: '.' :: second :: others := by
  rw [mantissa, h]
  rfl

theorem digits_cases (d : Decimal) :
    (exists c, d.digits = [c]) ∨
    exists c second others, d.digits = c :: second :: others := by
  rcases List.exists_cons_of_length_pos d.length_digits_pos with
    ⟨c, rest, hdigits⟩
  cases rest with
  | nil => exact Or.inl ⟨c, hdigits⟩
  | cons second others => exact Or.inr ⟨c, second, others, hdigits⟩

theorem scientific_scientific (d : Decimal) :
    Scientific d.digits d.leadingExponent d.scientific := by
  rw [scientific_eq]
  rcases d.digits_cases with ⟨c, hdigits⟩ | ⟨c, second, others, hdigits⟩
  · rw [mantissa_single hdigits, hdigits]
    exact .single c _
  · rw [mantissa_point hdigits, hdigits]
    exact .point c second others _

theorem isNumeralChar_of_mem_mantissa (hc : c ∈ d.mantissa) :
    isNumeralChar c = true := by
  have hdigit : forall e, e ∈ d.digits -> isNumeralChar e = true :=
    fun e he => isNumeralChar_of_isDigit (isDigit_of_mem_digits he)
  rcases d.digits_cases with ⟨first, hdigits⟩ | ⟨first, second, others, hdigits⟩
  · rw [mantissa_single hdigits, ← hdigits] at hc
    exact hdigit c hc
  · rw [mantissa_point hdigits] at hc
    rw [hdigits] at hdigit
    rcases List.mem_cons.mp hc with rfl | hc
    · exact hdigit c List.mem_cons_self
    · rcases List.mem_cons.mp hc with rfl | hc
      · rfl
      · exact hdigit c (List.mem_cons_of_mem _ hc)

/-!
## The two kinds of texts
-/

theorem e_notMem_of_plain {digits : List Char} (h : Plain digits exponent text)
    (hdigits : forall c, c ∈ digits -> c.isDigit = true) : 'e' ∉ text := by
  have hnot : 'e' ∉ digits := fun he => by cases hdigits _ he
  have hzeros : forall zeros, 'e' ∉ List.replicate zeros '0' :=
    fun zeros he => by cases isDigit_of_mem_zeros he
  cases h with
  | whole _ zeros => simp [hnot, hzeros]
  | point whole fraction =>
      rw [List.mem_append, not_or] at hnot
      simp [hnot.left, hnot.right]
  | fraction _ zeros => simp [hnot, hzeros]

theorem isDigit_head?_of_plain {digits : List Char}
    (h : Plain digits exponent text) (hne : digits ≠ [])
    (hdigits : forall c, c ∈ digits -> c.isDigit = true)
    (hc : text.head? = some c) : c.isDigit = true := by
  cases h with
  | whole _ zeros =>
      rw [List.head?_append_of_ne_nil _ hne] at hc
      exact hdigits c (List.mem_of_head? hc)
  | point whole fraction hwhole =>
      rw [List.head?_append_of_ne_nil _ hwhole] at hc
      exact hdigits c (List.mem_append_left _ (List.mem_of_head? hc))
  | fraction _ zeros =>
      rw [← Option.some.inj hc]
      rfl

theorem isDigit_head?_of_scientific {digits : List Char}
    (h : Scientific digits exponent text)
    (hdigits : forall c, c ∈ digits -> c.isDigit = true)
    (hc : text.head? = some c) :
    c.isDigit = true := by
  cases h with
  | single =>
      rw [← Option.some.inj hc]
      exact hdigits _ List.mem_cons_self
  | point =>
      rw [← Option.some.inj hc]
      exact hdigits _ List.mem_cons_self

theorem e_mem_of_scientific {digits : List Char}
    (h : Scientific digits exponent text) :
    'e' ∈ text := by
  cases h with
  | single => simp [power]
  | point => simp [power]

theorem not_plain_scientific (d : Decimal) :
    ¬ Plain d.digits d.leadingExponent d.scientific :=
  fun h => e_notMem_of_plain h (fun _ hc => isDigit_of_mem_digits hc)
    (e_mem_of_scientific d.scientific_scientific)

theorem not_scientific_positional (d : Decimal) :
    ¬ Scientific d.digits d.leadingExponent d.positional :=
  fun h =>
    e_notMem_of_plain d.plain_positional (fun _ hc => isDigit_of_mem_digits hc)
    (e_mem_of_scientific h)

end Decimal

/-!
## Values of texts
-/

namespace Numeral

open Decimal

variable {d : Decimal} {text rest : List Char}

theorem ne_e_of_isNumeralChar {c : Char} (h : isNumeralChar c = true) :
    decide (c ≠ 'e') = true := by
  apply decide_eq_true
  rintro rfl
  cases h

theorem scaledValue_of_numeral
    (h : forall c, c ∈ text -> isNumeralChar c = true) :
    scaledValue text = value text := by
  have hend : forall c : Char, [].head? = some c ->
      decide (c ≠ 'e') = false := by simp
  rcases eq_takeWhile_of_append
    (fun c hc => ne_e_of_isNumeralChar (h c hc)) hend with ⟨htake, hdrop⟩
  rw [List.append_nil] at htake hdrop
  rw [scaledValue, htake, hdrop]
  exact mul_one _

theorem integer_power (exponent : Int) :
    integer ((power exponent).drop 1) = exponent := by
  have hread := @Nat.ofDigitChars_ten_toDigits exponent.natAbs
  rcases Int.lt_or_le exponent 0 with hneg | hnonneg
  · have htext : (power exponent).drop 1 =
        '-' :: Nat.toDigits 10 exponent.natAbs := by
      rw [power, if_pos hneg]
      rfl
    rw [htext, integer, hread]
    omega
  · have htext : (power exponent).drop 1 =
        '+' :: Nat.toDigits 10 exponent.natAbs := by
      rw [power, if_neg (Int.not_lt.mpr hnonneg)]
      rfl
    rw [htext, integer, hread]
    omega

theorem scaledValue_append_power
    (h : forall c, c ∈ text -> isNumeralChar c = true) (exponent : Int) :
    scaledValue (text ++ power exponent) = value text * 10 ^ exponent := by
  have hend : forall c : Char, (power exponent).head? = some c ->
      decide (c ≠ 'e') = false := by
    intro c hc
    rw [← Option.some.inj hc]
    rfl
  rcases eq_takeWhile_of_append
    (fun c hc => ne_e_of_isNumeralChar (h c hc)) hend with ⟨htake, hdrop⟩
  rw [scaledValue, htake, hdrop, integer_power]

theorem scaledValue_positional (d : Decimal) :
    scaledValue d.positional = d.value := by
  rw [scaledValue_of_numeral fun c hc => isNumeralChar_of_mem_positional hc]
  rcases Int.lt_or_le d.exponent 0 with hneg | hnonneg
  · exact value_of_ofNumeral? (ofNumeral?_positional_of_neg hneg)
  · rw [positional_of_nonneg hnonneg, value_of_ofNumeral? ofNumeral?_extended,
      Decimal.value, Decimal.value, ten_zpow_eq d.exponent]
    have hdown : (-d.exponent).toNat = 0 := by omega
    rw [hdown, powerOfTen_zero]
    push_cast
    ring

theorem value_mantissa (d : Decimal) :
    value d.mantissa = d.significand / 10 ^ (d.digits.length - 1) := by
  have hdigits : forall c, c ∈ d.digits -> c.isDigit = true :=
    fun _ => isDigit_of_mem_digits
  have hread : Nat.ofDigitChars 10 d.digits 0 = d.significand :=
    Nat.ofDigitChars_ten_toDigits
  rcases d.digits_cases with ⟨c, hsplit⟩ | ⟨c, second, others, hsplit⟩
  · rw [hsplit] at hdigits hread
    rw [mantissa_single hsplit,
      value_of_ofNumeral? (ofNumeral?_digits (List.cons_ne_nil _ _) hdigits),
      hread, hsplit]
    simp [Decimal.value]
  · have hpoint :=
      @ofNumeral?_point [c] (second :: others) (List.cons_ne_nil _ _)
        (by rwa [hsplit] at hdigits)
    rw [hsplit] at hread
    rw [List.singleton_append, List.singleton_append, hread] at hpoint
    rw [mantissa_point hsplit, value_of_ofNumeral? hpoint, hsplit,
      Decimal.value, zpow_neg, zpow_natCast, div_eq_mul_inv]
    rfl

theorem scaledValue_scientific (d : Decimal) :
    scaledValue d.scientific = d.value := by
  have hpos := d.length_digits_pos
  have hexponent : d.leadingExponent =
      d.exponent + (d.digits.length - 1 : Nat) := by
    unfold leadingExponent
    omega
  rw [scientific_eq,
    scaledValue_append_power fun c hc => isNumeralChar_of_mem_mantissa hc,
    value_mantissa, hexponent, zpow_add₀ (by norm_num), zpow_natCast,
    Decimal.value]
  field_simp

theorem textValue_of_head? (h : text.head? ≠ some '-') :
    textValue text = scaledValue text := by
  unfold textValue
  split
  · exact absurd rfl h
  · rfl

end Numeral

end LineCalc
