import LineCalc.Binary64.Encoding
import LineCalc.Proofs.Binary64.Nearest

/-!
# Rounding to words

The word of a number without a sign is the rank of its magnitude, and the value
of a finite word is the units of its magnitude behind its sign.  So the word of
the nearest magnitude is the word to which a quotient is rounded.
-/

namespace LineCalc

namespace Word

def magnitude (word : UInt64) : Magnitude :=
  .ofRank (word.toNat % 2 ^ 63)

section Fields

variable {word : UInt64}

theorem sign_lt (word : UInt64) : sign word < 2 := by
  have hword := word.toNat_lt
  unfold sign
  omega

theorem toNat_mod (word : UInt64) :
    word.toNat % 2 ^ 63 = exponent word * 2 ^ 52 + fraction word := by
  unfold exponent fraction
  omega

theorem rank_magnitude (h : IsFinite word) :
    (magnitude word).rank = exponent word * binadeSize + fraction word := by
  have hmod := toNat_mod word
  have hexponent : exponent word < 2 ^ 11 := Nat.mod_lt _ (by decide)
  have hfraction : fraction word < 2 ^ 52 := Nat.mod_lt _ (by decide)
  rw [magnitude, Magnitude.rank_ofRank, hmod]
  unfold IsFinite at h
  unfold infiniteRank binadeSize
  omega

theorem units_magnitude_subnormal (h : exponent word = 0) :
    (magnitude word).units = fraction word := by
  have hfinite : IsFinite word := by
    rw [IsFinite, h]
    decide
  have hfraction : fraction word < binadeSize := Nat.mod_lt _ (by decide)
  have hrank := rank_magnitude hfinite
  rw [h, Nat.zero_mul, Nat.zero_add] at hrank
  have hexponent : (magnitude word).exponent = 0 := by
    rw [Magnitude.exponent, hrank, Nat.div_eq_of_lt hfraction]
  rw [Magnitude.units_eq, Magnitude.significand, hexponent, hrank]
  omega

theorem units_magnitude_normal (h : IsFinite word) {e : Nat}
    (he : exponent word = e + 1) :
    (magnitude word).units = (binadeSize + fraction word) * 2 ^ e := by
  have hfraction : fraction word < binadeSize := Nat.mod_lt _ (by decide)
  have hrank := rank_magnitude h
  rw [he] at hrank
  have hexponent : (magnitude word).exponent = e := by
    rw [Magnitude.exponent, hrank]
    unfold binadeSize at *
    omega
  rw [Magnitude.units_eq, Magnitude.significand, hexponent, hrank]
  congr 1
  unfold binadeSize
  omega

theorem cast_unitsPerOne : (unitsPerOne : ℚ) = 2 ^ 1074 := by
  rw [unitsPerOne, Nat.shiftLeft_eq, Nat.one_mul, Nat.cast_pow]
  rfl

theorem unitsPerOne_pos : (0 : ℚ) < unitsPerOne := by
  rw [cast_unitsPerOne]
  positivity

theorem scale_subnormal (x : ℚ) :
    x / 2 ^ 52 * (2 : ℚ) ^ (-1022 : Int) = x / unitsPerOne := by
  have hpower : (2 : ℚ) ^ 1074 = 2 ^ 52 * 2 ^ 1022 := pow_add 2 52 1022
  rw [zpow_neg, zpow_ofNat, ← div_eq_mul_inv, div_div, cast_unitsPerOne, hpower]

theorem scale_normal (x : ℚ) (e : Nat) :
    (1 + x / 2 ^ 52) * (2 : ℚ) ^ (((e + 1 : Nat) : Int) - 1023) =
      (2 ^ 52 + x) * 2 ^ e / unitsPerOne := by
  have hpower : (2 : ℚ) ^ 1074 = 2 ^ 51 * 2 ^ 1023 := pow_add 2 51 1023
  have hhidden : (1 + x / 2 ^ 52) * 2 = (2 ^ 52 + x) / 2 ^ 51 := by
    rw [eq_div_iff (by norm_num)]
    ring
  rw [zpow_sub₀ two_ne_zero, zpow_natCast, zpow_ofNat, cast_unitsPerOne, hpower,
    pow_succ' (2 : ℚ) e, ← mul_div_assoc, ← mul_assoc, hhidden,
    div_mul_eq_mul_div, div_div]

theorem value_eq (h : IsFinite word) :
    value word = (-1) ^ sign word * ((magnitude word).units / unitsPerOne) := by
  unfold value
  congr 1
  split
  · rename_i hzero
    rw [units_magnitude_subnormal hzero, scale_subnormal]
  · rename_i hne
    rcases Nat.exists_eq_succ_of_ne_zero hne with ⟨e, he⟩
    rw [units_magnitude_normal h he, he, Nat.succ_eq_add_one, scale_normal]
    push_cast
    rfl

end Fields

/-!
## Words of magnitudes
-/

section Magnitudes

open Binary64

variable {m : Magnitude}

theorem toNat_toBits (m : Magnitude) :
    (signed false m).toBits.toNat = m.rank := by
  have hrank := m.rank_le
  rw [toBits, UInt64.toNat_ofNat', if_neg Bool.false_ne_true, Nat.zero_add]
  apply Nat.mod_eq_of_lt
  unfold infiniteRank at hrank
  omega

theorem sign_toBits (m : Magnitude) : sign (signed false m).toBits = 0 := by
  have hrank := m.rank_le
  rw [sign, toNat_toBits]
  unfold infiniteRank at hrank
  omega

theorem toBits_eq_infinity_iff :
    (signed false m).toBits = infinity <-> m = .infinity := by
  rw [← UInt64.toNat_inj, toNat_toBits, Magnitude.ext_iff]
  exact Iff.rfl

theorem isFinite_toBits (h : m ≠ .infinity) :
    IsFinite (signed false m).toBits := by
  have hrank := m.rank_le
  rw [Ne, Magnitude.ext_iff, Magnitude.infinity, Magnitude.rank_ofRank,
    Nat.min_self] at h
  rw [IsFinite, exponent, toNat_toBits]
  unfold infiniteRank at h hrank
  omega

theorem magnitude_toBits (m : Magnitude) :
    magnitude (signed false m).toBits = m := by
  have hrank := m.rank_le
  have hmod : m.rank % 2 ^ 63 = m.rank := by
    unfold infiniteRank at hrank
    omega
  rw [magnitude, toNat_toBits, hmod, Magnitude.ofRank_rank]

theorem value_toBits (h : m ≠ .infinity) :
    value (signed false m).toBits = m.units / unitsPerOne := by
  rw [value_eq (isFinite_toBits h), sign_toBits, magnitude_toBits,
    pow_zero, one_mul]

theorem even_fraction_toBits :
    Even (fraction (signed false m).toBits) <-> Even m.rank := by
  rw [fraction, toNat_toBits, Nat.even_iff, Nat.even_iff]
  omega

end Magnitudes

/-!
## Rounding quotients
-/

section Rounding

variable {num den : Nat} {other : UInt64}

theorem dist_div (u q : ℚ) :
    |u / unitsPerOne - q / unitsPerOne| = |u - q| / unitsPerOne := by
  rw [← sub_div, abs_div, abs_of_pos unitsPerOne_pos]

theorem dist_le_dist_neg {u q : ℚ} (hu : 0 ≤ u) (hq : 0 ≤ q) :
    |u - q| ≤ |-u - q| := by
  rw [abs_sub_comm (-u), sub_neg_eq_add,
    abs_of_nonneg (add_nonneg hq hu), abs_le]
  constructor <;> linarith

theorem eq_zero_of_dist_eq_dist_neg {u q : ℚ} (hu : 0 ≤ u) (hq : 0 ≤ q)
    (h : |u - q| = |-u - q|) : u = 0 ∨ q = 0 := by
  rw [abs_sub_comm (-u), sub_neg_eq_add, abs_of_nonneg (add_nonneg hq hu)] at h
  rcases abs_cases (u - q) with ⟨habs, _⟩ | ⟨habs, _⟩
  · exact Or.inr (by linarith)
  · exact Or.inl (by linarith)

theorem value_eq_or_neg (h : IsFinite other) :
    value other = (magnitude other).units / unitsPerOne ∨
      value other = -((magnitude other).units : ℚ) / unitsPerOne := by
  have hsign := sign_lt other
  rw [value_eq h]
  have hcases : sign other = 0 ∨ sign other = 1 := by omega
  rcases hcases with hzero | hone
  · left
    rw [hzero, pow_zero, one_mul]
  · right
    rw [hone, pow_one, neg_one_mul, neg_div]

theorem dist_magnitude_le (h : IsFinite other) {q : ℚ} (hq : 0 ≤ q) :
    |((magnitude other).units : ℚ) - q| / unitsPerOne ≤
      |value other - q / unitsPerOne| := by
  rcases value_eq_or_neg h with hvalue | hvalue
  · rw [hvalue, dist_div]
  · rw [hvalue, dist_div]
    exact div_le_div_of_nonneg_right (dist_le_dist_neg (Nat.cast_nonneg _) hq)
      unitsPerOne_pos.le

theorem overflow_threshold (q : ℚ) :
    (2 * binadeSize - 1 / 2) * 2 ^ Magnitude.lastExponent ≤ q <->
      2 ^ 1024 - 2 ^ 970 ≤ q / unitsPerOne := by
  have hlast : (2 : ℚ) ^ Magnitude.lastExponent = 2 ^ 971 * 2 ^ 1074 := by
    unfold Magnitude.lastExponent
    exact pow_add 2 971 1074
  have hbinade : (binadeSize : ℚ) = 2 ^ 52 := by
    norm_num [binadeSize]
  have hwhole : (2 : ℚ) ^ 1024 = 2 ^ 53 * 2 ^ 971 := pow_add 2 53 971
  have hhalf : (2 : ℚ) ^ 971 = 2 ^ 970 * 2 := pow_succ 2 970
  have hscale : (2 * (binadeSize : ℚ) - 1 / 2) * 2 ^ 971 =
      2 ^ 1024 - 2 ^ 970 := by
    rw [hbinade, hwhole, hhalf]
    generalize (2 : ℚ) ^ 970 = step
    ring
  rw [le_div_iff₀ unitsPerOne_pos, cast_unitsPerOne, hlast, ← mul_assoc, hscale]

theorem dist_toBits_nearest (hden : 0 < den)
    (hfinite : Magnitude.nearest num den ≠ .infinity) (h : IsFinite other) :
    |value (Binary64.signed false (.nearest num den)).toBits -
        num / den / unitsPerOne| ≤
      |value other - num / den / unitsPerOne| := by
  have hq : (0 : ℚ) ≤ num / den := by positivity
  rw [value_toBits hfinite, dist_div]
  refine le_trans ?_ (dist_magnitude_le h hq)
  exact div_le_div_of_nonneg_right (Magnitude.dist_nearest_le hden hfinite _)
    unitsPerOne_pos.le

theorem units_nearest_eq_zero (hden : 0 < den) (h : (num / den : ℚ) = 0) :
    (Magnitude.nearest num den).units = 0 := by
  rcases div_eq_zero_iff.mp h with hnum | hzero
  · rw [Nat.cast_eq_zero.mp hnum, Magnitude.nearest_zero hden]
    rfl
  · exact absurd (Nat.cast_eq_zero.mp hzero) hden.ne'

theorem value_eq_of_units_eq (hden : 0 < den) (h : IsFinite other)
    (hunits : (magnitude other).units = (Magnitude.nearest num den).units)
    (htie :
      |((Magnitude.nearest num den).units : ℚ) / unitsPerOne -
          num / den / unitsPerOne| =
        |value other - num / den / unitsPerOne|) :
    value other = (Magnitude.nearest num den).units / unitsPerOne := by
  rcases value_eq_or_neg h with hvalue | hvalue
  · rw [hvalue, hunits]
  · have hq : (0 : ℚ) ≤ num / den := by positivity
    rw [hvalue, hunits, dist_div, dist_div,
      div_left_inj' unitsPerOne_pos.ne'] at htie
    have hzero : (Magnitude.nearest num den).units = 0 := by
      rcases eq_zero_of_dist_eq_dist_neg (Nat.cast_nonneg _) hq htie with
        hu | hnum
      · exact Nat.cast_eq_zero.mp hu
      · exact units_nearest_eq_zero hden hnum
    rw [hvalue, hunits, hzero, Nat.cast_zero, neg_zero]

theorem even_fraction_nearest (hden : 0 < den)
    (hfinite : Magnitude.nearest num den ≠ .infinity) (h : IsFinite other)
    (hne : value other ≠ value (Binary64.signed false (.nearest num den)).toBits)
    (htie : |value (Binary64.signed false (.nearest num den)).toBits - num /
      den / unitsPerOne| =
      |value other - num / den / unitsPerOne|) :
    Even (fraction (Binary64.signed false (.nearest num den)).toBits) := by
  have hq : (0 : ℚ) ≤ num / den := by positivity
  rw [value_toBits hfinite] at hne htie
  have hle := dist_magnitude_le h hq
  rw [← htie, dist_div, div_le_div_iff_of_pos_right unitsPerOne_pos] at hle
  have heq :=
    le_antisymm (Magnitude.dist_nearest_le hden hfinite (magnitude other)) hle
  apply even_fraction_toBits.mpr
  apply Magnitude.even_rank_nearest hden hfinite _ heq
  exact fun hunits => hne (value_eq_of_units_eq hden h hunits htie)

/-- A quotient is rounded to the word of the nearest magnitude. -/
theorem rounds_toBits (hden : 0 < den) :
    Rounds (num / den / unitsPerOne)
      (Binary64.signed false (.nearest num den)).toBits where
  overflow := by
    rw [toBits_eq_infinity_iff, ← overflow_threshold]
    exact ⟨Magnitude.le_quotient_of_infinity hden,
      Magnitude.infinity_of_le_quotient hden⟩
  finite := fun h => isFinite_toBits (mt toBits_eq_infinity_iff.mpr h)
  nearest := fun h _ hother =>
    dist_toBits_nearest hden (mt toBits_eq_infinity_iff.mpr h) hother
  tie := fun h _ hother hne htie =>
    even_fraction_nearest hden (mt toBits_eq_infinity_iff.mpr h) hother hne htie

end Rounding

end Word

end LineCalc
