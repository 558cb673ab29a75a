import LineCalc.Binary64.Text
import LineCalc.Proofs.Token.Spelling

/-!
# Numerals and positional texts

A run of digits with at most one point among them denotes the number that its
digits spell, with as many places as there are digits behind the point.  So the
positional text of a decimal is a numeral of the same magnitude, and the plain
text of a finite number without a sign denotes the number itself.
-/

namespace LineCalc

theorem isNumeralChar_of_isDigit {c : Char} (h : c.isDigit = true) :
    isNumeralChar c = true := by
  rw [isNumeralChar, h, Bool.true_or]

theorem ne_point_of_isDigit {c : Char} (h : c.isDigit = true) :
    decide (c ≠ '.') = true := by
  apply decide_eq_true
  rintro rfl
  cases h

namespace Decimal

/-!
## What numerals denote
-/

variable {text whole fraction : List Char}

theorem parts_of_digits (hdigits : forall c, c ∈ whole -> c.isDigit = true) :
    whole.takeWhile (· ≠ '.') = whole ∧
    (whole.dropWhile (· ≠ '.')).drop 1 = [] := by
  have hend : forall c : Char, [].head? = some c ->
      decide (c ≠ '.') = false := by simp
  rcases eq_takeWhile_of_append
    (fun c hc => ne_point_of_isDigit (hdigits c hc)) hend with ⟨htake, hdrop⟩
  rw [List.append_nil] at htake hdrop
  exact ⟨htake, congrArg (List.drop 1) hdrop⟩

theorem parts_of_point (hdigits : forall c, c ∈ whole -> c.isDigit = true) :
    (whole ++ '.' :: fraction).takeWhile (· ≠ '.') = whole ∧
      ((whole ++ '.' :: fraction).dropWhile (· ≠ '.')).drop 1 = fraction := by
  have hpoint : forall c : Char, ('.' :: fraction).head? = some c ->
      decide (c ≠ '.') = false := by
    intro c hc
    rw [← Option.some.inj hc]
    rfl
  rcases eq_takeWhile_of_append
    (fun c hc => ne_point_of_isDigit (hdigits c hc)) hpoint with ⟨htake, hdrop⟩
  exact ⟨htake, congrArg (List.drop 1) hdrop⟩

theorem ofNumeral?_eq (hwhole : text.takeWhile (· ≠ '.') = whole)
    (hfraction : (text.dropWhile (· ≠ '.')).drop 1 = fraction) :
    ofNumeral? text =
      if whole ++ fraction ≠ [] ∧ (whole ++ fraction).all Char.isDigit then
        some ⟨Nat.ofDigitChars 10 (whole ++ fraction) 0, -fraction.length⟩
      else none := by
  unfold ofNumeral?
  rw [hwhole, hfraction]

theorem ofNumeral?_digits (hne : whole ≠ [])
    (hdigits : forall c, c ∈ whole -> c.isDigit = true) :
    ofNumeral? whole = some ⟨Nat.ofDigitChars 10 whole 0, 0⟩ := by
  rcases parts_of_digits hdigits with ⟨htake, hdrop⟩
  rw [ofNumeral?_eq htake hdrop, List.append_nil]
  exact if_pos ⟨hne, List.all_eq_true.mpr hdigits⟩

theorem ofNumeral?_point (hne : whole ++ fraction ≠ [])
    (hdigits : forall c, c ∈ whole ++ fraction -> c.isDigit = true) :
    ofNumeral? (whole ++ '.' :: fraction) =
      some ⟨Nat.ofDigitChars 10 (whole ++ fraction) 0, -fraction.length⟩ := by
  rcases parts_of_point fun c hc => hdigits c (List.mem_append_left _ hc) with
    ⟨htake, hdrop⟩
  rw [ofNumeral?_eq htake hdrop]
  exact if_pos ⟨hne, List.all_eq_true.mpr hdigits⟩

/-!
## Positional texts
-/

variable {d : Decimal} {c : Char}

theorem isDigit_of_mem_zeros {n : Nat} (hc : c ∈ List.replicate n '0') :
    c.isDigit = true := by
  rw [List.eq_of_mem_replicate hc]
  rfl

theorem isDigit_of_mem_digits (hc : c ∈ d.digits) : c.isDigit = true :=
  Nat.isDigit_of_mem_toDigits (by decide) (by decide) hc

def extended (d : Decimal) : List Char :=
  d.digits ++ List.replicate d.exponent.toNat '0'

def padded (d : Decimal) : List Char :=
  List.replicate ((-d.exponent).toNat + 1 - d.digits.length) '0' ++ d.digits

theorem isDigit_of_mem_extended (hc : c ∈ d.extended) : c.isDigit = true :=
  (List.mem_append.mp hc).elim isDigit_of_mem_digits isDigit_of_mem_zeros

theorem isDigit_of_mem_padded (hc : c ∈ d.padded) : c.isDigit = true :=
  (List.mem_append.mp hc).elim isDigit_of_mem_zeros isDigit_of_mem_digits

theorem positional_of_nonneg (h : 0 ≤ d.exponent) : d.positional = d.extended :=
  if_pos h

theorem toNat_lt_length_padded : (-d.exponent).toNat < d.padded.length := by
  rw [padded, List.length_append, List.length_replicate]
  omega

theorem exists_positional_of_neg (h : d.exponent < 0) :
    exists whole fraction, d.positional = whole ++ '.' :: fraction ∧
      whole ++ fraction = d.padded ∧ -(fraction.length : Int) = d.exponent := by
  have hlength := d.toNat_lt_length_padded
  refine ⟨_, _, if_neg (Int.not_le.mpr h), List.take_append_drop _ _, ?_⟩
  rw [List.length_drop]
  change -((d.padded.length - (d.padded.length - (-d.exponent).toNat) : Nat) :
    Int) = d.exponent
  omega

theorem isNumeralChar_of_mem_positional (hc : c ∈ d.positional) :
    isNumeralChar c = true := by
  by_cases hwhole : 0 ≤ d.exponent
  · rw [positional_of_nonneg hwhole] at hc
    exact isNumeralChar_of_isDigit (isDigit_of_mem_extended hc)
  · rcases exists_positional_of_neg (Int.not_le.mp hwhole) with
      ⟨whole, fraction, htext, hparts, _⟩
    have hdigits : forall e, e ∈ whole ++ fraction ->
        isNumeralChar e = true := by
      rw [hparts]
      exact fun e he => isNumeralChar_of_isDigit (isDigit_of_mem_padded he)
    rw [htext] at hc
    rcases List.mem_append.mp hc with hc | hc
    · exact hdigits c (List.mem_append_left _ hc)
    · rcases List.mem_cons.mp hc with rfl | hc
      · rfl
      · exact hdigits c (List.mem_append_right _ hc)

/-!
## Reading positional texts
-/

theorem magnitude_mul_powerOfTen (significand n : Nat) :
    (Decimal.mk (powerOfTen n * significand) 0).magnitude =
      (Decimal.mk significand n).magnitude := by
  have hzeros : significand * powerOfTen n =
      powerOfTen n * significand * powerOfTen 0 := by
    rw [powerOfTen_zero, Nat.mul_one, Nat.mul_comm]
  simp [magnitude, hzeros]

theorem ofDigitChars_extended :
    Nat.ofDigitChars 10 d.extended 0 =
      powerOfTen d.exponent.toNat * d.significand := by
  rw [extended, Nat.ofDigitChars_append, digits, Nat.ofDigitChars_ten_toDigits,
    Nat.ofDigitChars_replicate_zero]
  rfl

theorem ofNumeral?_extended :
    ofNumeral? d.extended =
      some ⟨powerOfTen d.exponent.toNat * d.significand, 0⟩ := by
  have hne : d.extended ≠ [] :=
    List.append_ne_nil_of_left_ne_nil Nat.toDigits_ne_nil _
  rw [ofNumeral?_digits hne fun c hc => isDigit_of_mem_extended hc,
    ofDigitChars_extended]

theorem ofDigitChars_padded :
    Nat.ofDigitChars 10 d.padded 0 = d.significand := by
  rw [padded, Nat.ofDigitChars_append, Nat.ofDigitChars_replicate_zero,
    Nat.mul_zero, digits, Nat.ofDigitChars_ten_toDigits]

theorem ofNumeral?_positional_of_neg (h : d.exponent < 0) :
    ofNumeral? d.positional = some d := by
  rcases exists_positional_of_neg h with
    ⟨whole, fraction, htext, hparts, hplaces⟩
  have hne : whole ++ fraction ≠ [] := by
    rw [hparts]
    exact List.ne_nil_of_length_pos (Nat.zero_lt_of_lt toNat_lt_length_padded)
  have hdigits : forall c, c ∈ whole ++ fraction -> c.isDigit = true := by
    rw [hparts]
    exact fun c hc => isDigit_of_mem_padded hc
  rw [htext, ofNumeral?_point hne hdigits, hparts, ofDigitChars_padded, hplaces]

theorem ofNumeral_positional (d : Decimal) :
    Binary64.ofNumeral d.positional = .signed false d.magnitude := by
  unfold Binary64.ofNumeral
  by_cases hwhole : 0 ≤ d.exponent
  · have hmagnitude := magnitude_mul_powerOfTen d.significand d.exponent.toNat
    rw [Int.toNat_of_nonneg hwhole] at hmagnitude
    rw [positional_of_nonneg hwhole, ofNumeral?_extended]
    exact congrArg (Binary64.signed false) hmagnitude
  · rw [ofNumeral?_positional_of_neg (Int.not_le.mp hwhole)]

end Decimal

namespace Binary64

def IsFinite : Binary64 -> Prop
  | nan => False
  | signed _ m => m ≠ .infinity

instance : DecidablePred IsFinite
  | nan => inferInstanceAs (Decidable False)
  | signed _ m => inferInstanceAs (Decidable (m ≠ .infinity))

variable {m : Magnitude}

theorem plainChars_of_ne_infinity (h : m ≠ .infinity) :
    (signed false m).plainChars = (m.shortest .up).positional := by
  rw [plainChars, if_neg h, withSign, if_neg Bool.false_ne_true]

/-- The plain text of a finite number without a sign denotes the number. -/
theorem ofNumeral_plainChars (h : m ≠ .infinity) :
    ofNumeral (signed false m).plainChars = signed false m := by
  rw [plainChars_of_ne_infinity h, Decimal.ofNumeral_positional,
    Magnitude.magnitude_shortest]

end Binary64

end LineCalc
