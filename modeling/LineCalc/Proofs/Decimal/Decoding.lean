import LineCalc.Proofs.Decimal.Positional
import LineCalc.Proofs.Decimal.Value

/-!
# Decoding of numerals

The digits of a numeral are read as one natural number, however many they are,
and divided by a power of ten.  This is the rational that the numeral denotes,
and it is rounded only once.
-/

namespace LineCalc

namespace Numeral

/-!
## Values
-/

theorem foldl_digit (digits : List Char) (n : Nat) :
    digits.foldl (fun value c => 10 * value + digit c) (n : ℚ) =
      (Nat.ofDigitChars 10 digits n : ℚ) := by
  induction digits generalizing n with
  | nil => simp
  | cons c digits ih =>
      rw [List.foldl_cons, Nat.ofDigitChars_cons, ← ih, digit]
      push_cast
      rfl

theorem whole_eq (digits : List Char) :
    whole digits = (Nat.ofDigitChars 10 digits 0 : ℚ) := by
  rw [whole, ← foldl_digit, Nat.cast_zero]

theorem fraction_eq (digits : List Char) :
    fraction digits =
      (Nat.ofDigitChars 10 digits 0 : ℚ) / 10 ^ digits.length := by
  induction digits with
  | nil => simp [fraction]
  | cons c digits ih =>
      have hpower : (10 : ℚ) ^ digits.length ≠ 0 := by positivity
      have hread :=
        @Nat.ofDigitChars_eq_ofDigitChars_zero digits (c.toNat - '0'.toNat)
      rw [fraction, ih, Nat.ofDigitChars_cons, Nat.mul_zero,
        Nat.zero_add, hread, digit, List.length_cons, pow_succ]
      push_cast
      field_simp

theorem value_eq {run whole fraction : List Char}
    (hwhole : run.takeWhile (· ≠ '.') = whole)
    (hfraction : (run.dropWhile (· ≠ '.')).drop 1 = fraction) :
    value run =
      (Nat.ofDigitChars 10 (whole ++ fraction) 0 : ℚ) /
        10 ^ fraction.length := by
  have hpower : (10 : ℚ) ^ fraction.length ≠ 0 := by positivity
  have hread :=
    @Nat.ofDigitChars_eq_ofDigitChars_zero fraction
      (Nat.ofDigitChars 10 whole 0)
  rw [value, hwhole, hfraction, whole_eq, fraction_eq,
    Nat.ofDigitChars_append, hread]
  push_cast
  field_simp

/-!
## Runs that denote a number
-/

section Runs

variable {run : List Char}

theorem isDigit_of_isNumeralChar {c : Char} (h : isNumeralChar c = true)
    (hc : c ≠ '.') :
    c.isDigit = true := by
  rw [isNumeralChar, decide_eq_false hc, Bool.or_false] at h
  exact h

theorem isDigit_of_point_notMem
    (hchars : forall c, c ∈ run -> isNumeralChar c = true)
    (hpoint : '.' ∉ run) : forall c, c ∈ run -> c.isDigit = true := by
  intro c hc
  apply isDigit_of_isNumeralChar (hchars c hc)
  rintro rfl
  exact hpoint hc

theorem count_eq_zero_of_digits
    (hdigits : forall c, c ∈ run -> c.isDigit = true) :
    run.count '.' = 0 := by
  apply List.count_eq_zero.mpr
  intro hpoint
  cases hdigits _ hpoint

theorem cases_of_chars (hchars : forall c, c ∈ run -> isNumeralChar c = true) :
    (forall c, c ∈ run -> c.isDigit = true) ∨
      exists whole fraction, run = whole ++ '.' :: fraction ∧
        (forall c, c ∈ whole -> c.isDigit = true) ∧
        forall c, c ∈ fraction -> isNumeralChar c = true := by
  by_cases hpoint : '.' ∈ run
  · rcases List.eq_append_cons_of_mem hpoint with ⟨whole, fraction, rfl, hwhole⟩
    refine Or.inr ⟨whole, fraction, rfl, ?_, ?_⟩
    · exact isDigit_of_point_notMem
        (fun c hc => hchars c (List.mem_append_left _ hc)) hwhole
    · exact fun c hc =>
        hchars c (List.mem_append_right _ (List.mem_cons_of_mem _ hc))
  · exact Or.inl (isDigit_of_point_notMem hchars hpoint)

section Point

variable {whole fraction : List Char} (hwhole : forall c, c ∈ whole ->
  c.isDigit = true)
  (hfraction : forall c, c ∈ fraction -> isNumeralChar c = true)

include hwhole hfraction

theorem isDigit_of_mem_parts (hpoint : '.' ∉ fraction) :
    forall c, c ∈ whole ++ fraction -> c.isDigit = true := by
  intro c hc
  exact (List.mem_append.mp hc).elim (hwhole c)
    (isDigit_of_point_notMem hfraction hpoint c)

theorem ofNumeral?_point_eq_none_iff :
    Decimal.ofNumeral? (whole ++ '.' :: fraction) = none <->
      whole ++ fraction = [] ∨ '.' ∈ fraction := by
  rcases Decimal.parts_of_point hwhole with ⟨htake, hdrop⟩
  rw [Decimal.ofNumeral?_eq htake hdrop]
  by_cases hread : whole ++ fraction = [] ∨ '.' ∈ fraction
  · refine iff_of_true (if_neg ?_) hread
    rintro ⟨hne, hdigits⟩
    rcases hread with hnil | hpoint
    · exact hne hnil
    · cases List.all_eq_true.mp hdigits '.' (List.mem_append_right _ hpoint)
  · refine iff_of_false ?_ hread
    rcases not_or.mp hread with ⟨hne, hpoint⟩
    rw [if_pos ⟨hne,
      List.all_eq_true.mpr (isDigit_of_mem_parts hwhole hfraction hpoint)⟩]
    exact Option.some_ne_none _

theorem no_digit_or_two_points_iff :
    ((forall c, c ∈ whole ++ '.' :: fraction -> ¬ c.isDigit) ∨
        1 < (whole ++ '.' :: fraction).count '.') <->
      whole ++ fraction = [] ∨ '.' ∈ fraction := by
  have hcount : 1 < (whole ++ '.' :: fraction).count '.' <->
      '.' ∈ fraction := by
    rw [List.count_append, count_eq_zero_of_digits hwhole, Nat.zero_add,
      List.count_cons_self, Nat.lt_add_left_iff_pos, List.count_pos_iff]
  rw [hcount]
  by_cases hpoint : '.' ∈ fraction
  · exact iff_of_true (Or.inr hpoint) (Or.inr hpoint)
  · refine or_congr_left ⟨fun hnone => List.eq_nil_iff_forall_not_mem.mpr ?_,
      ?_⟩
    · intro c hc
      apply hnone c _ (isDigit_of_mem_parts hwhole hfraction hpoint c hc)
      rcases List.mem_append.mp hc with hc | hc
      · exact List.mem_append_left _ hc
      · exact List.mem_append_right _ (List.mem_cons_of_mem _ hc)
    · intro hnil c hc
      rw [(List.append_eq_nil_iff.mp hnil).left,
        (List.append_eq_nil_iff.mp hnil).right] at hc
      rw [List.mem_singleton.mp hc]
      decide

end Point

theorem ofNumeral?_eq_none_iff (hne : run ≠ [])
    (hchars : forall c, c ∈ run -> isNumeralChar c = true) :
    Decimal.ofNumeral? run = none <->
      (forall c, c ∈ run -> ¬ c.isDigit) ∨ 1 < run.count '.' := by
  rcases cases_of_chars hchars with
    hdigits | ⟨whole, fraction, rfl, hwhole, hfraction⟩
  · rw [Decimal.ofNumeral?_digits hne hdigits, count_eq_zero_of_digits hdigits]
    refine iff_of_false (Option.some_ne_none _) ?_
    rcases List.exists_mem_of_ne_nil run hne with ⟨c, hc⟩
    rintro (hnone | htwo)
    · exact hnone c hc (hdigits c hc)
    · exact Nat.not_lt_zero 1 htwo
  · rw [ofNumeral?_point_eq_none_iff hwhole hfraction,
      no_digit_or_two_points_iff hwhole hfraction]

/-!
## Decoding
-/

theorem value_of_ofNumeral? {d : Decimal}
    (h : Decimal.ofNumeral? run = some d) :
    value run = d.value := by
  rw [Decimal.ofNumeral?_eq rfl rfl, Option.ite_none_right_eq_some,
    Option.some.injEq] at h
  rcases h with ⟨_, rfl⟩
  rw [value_eq rfl rfl, Decimal.value, zpow_neg, zpow_natCast, div_eq_mul_inv]

theorem rounds_magnitude {d : Decimal} (h : Decimal.ofNumeral? run = some d) :
    Word.Rounds (value run) (Binary64.signed false d.magnitude).toBits := by
  rw [value_of_ofNumeral? h]
  exact d.rounds_value

theorem isNaN_nan : Word.IsNaN Binary64.nan.toBits :=
  ⟨by decide +kernel, by decide +kernel⟩

theorem not_isNaN_toBits (m : Magnitude) :
    ¬ Word.IsNaN (Binary64.signed false m).toBits := by
  have hrank := m.rank_le
  unfold infiniteRank at hrank
  rintro ⟨hexponent, hfraction⟩
  rw [Word.exponent, Word.toNat_toBits] at hexponent
  rw [Word.fraction, Word.toNat_toBits] at hfraction
  omega

/-- Every run of digits and points is decoded as it should be. -/
theorem decodes_ofNumeral (hne : run ≠ [])
    (hchars : forall c, c ∈ run -> isNumeralChar c = true) :
    Decodes run (Binary64.ofNumeral run).toBits := by
  have hnone := ofNumeral?_eq_none_iff hne hchars
  unfold Binary64.ofNumeral
  cases hread : Decimal.ofNumeral? run with
  | none =>
      have hnan := isNaN_nan
      refine ⟨iff_of_true hnan (hnone.mp hread), ?_,
        fun hnumber => absurd hnan hnumber⟩
      decide +kernel
  | some d =>
      have hnumber := not_isNaN_toBits d.magnitude
      refine ⟨iff_of_false hnumber ?_, Word.sign_toBits _,
        fun _ => rounds_magnitude hread⟩
      rw [← hnone, hread]
      exact Option.some_ne_none d

end Runs

end Numeral

end LineCalc
