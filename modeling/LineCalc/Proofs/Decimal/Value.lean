import LineCalc.Decimal.Notation
import LineCalc.Decimal.Shortest
import LineCalc.Proofs.Binary64.Encoding
import LineCalc.Proofs.Binary64.Order

/-!
# Values of decimals

A decimal is read by rounding its value.  So decimals of greater values are read
as greater magnitudes, what lies between two decimals that are read as a
magnitude is read as it too, and so is what lies close enough to its own value.
-/

namespace LineCalc

namespace Word

theorem value_toBits_lt {a b : Magnitude} (hlt : a.rank < b.rank)
    (hb : b ≠ .infinity) :
    value (Binary64.signed false a).toBits <
      value (Binary64.signed false b).toBits := by
  rw [value_toBits (Magnitude.ne_infinity_of_rank_lt hlt), value_toBits hb,
    div_lt_div_iff_of_pos_right unitsPerOne_pos]
  exact Nat.cast_lt.mpr (Magnitude.units_lt_units hlt)

theorem not_rounds_of_rank_lt {x : ℚ} {a b : Magnitude} (hlt : a.rank < b.rank)
    (hb : b ≠ .infinity) (hrounds : Rounds x (Binary64.signed false a).toBits)
    (hrounds' : Rounds x (Binary64.signed false b).toBits) : False := by
  have ha := Magnitude.ne_infinity_of_rank_lt hlt
  have hvalue := value_toBits_lt hlt hb
  have hword := mt toBits_eq_infinity_iff.mp ha
  have hword' := mt toBits_eq_infinity_iff.mp hb
  have hab := hrounds.nearest hword _ (isFinite_toBits hb)
  have hba := hrounds'.nearest hword' _ (isFinite_toBits ha)
  have heven := even_fraction_toBits.mp
    (hrounds.tie hword _ (isFinite_toBits hb) hvalue.ne' (le_antisymm hab hba))
  have heven' := even_fraction_toBits.mp
    (hrounds'.tie hword' _ (isFinite_toBits ha) hvalue.ne (le_antisymm hba hab))
  have hnext : a.rank + 1 < b.rank := by
    rw [Nat.even_iff] at heven heven'
    omega
  let between := Magnitude.ofRank (a.rank + 1)
  have hbetween : between.rank = a.rank + 1 :=
    Nat.min_eq_left (hnext.le.trans b.rank_le)
  have habove : a.rank < between.rank := by
    rw [hbetween]
    exact Nat.lt_succ_self _
  have hbelow : between.rank < b.rank := by
    rw [hbetween]
    exact hnext
  have hc := Magnitude.ne_infinity_of_rank_lt hbelow
  have hlow := value_toBits_lt habove hc
  have hhigh := value_toBits_lt hbelow hb
  have hac := hrounds.nearest hword _ (isFinite_toBits hc)
  have hmiddle := add_le_two_mul_of_dist_le hvalue hba
  have hmiddle' := two_mul_le_add_of_dist_le hlow hac
  linarith

theorem Rounds.magnitude_unique {x : ℚ} {a b : Magnitude}
    (ha : Rounds x (Binary64.signed false a).toBits)
    (hb : Rounds x (Binary64.signed false b).toBits) : a = b := by
  have hinfinity : a = .infinity <-> b = .infinity := by
    rw [← toBits_eq_infinity_iff, ← toBits_eq_infinity_iff,
      ha.overflow, hb.overflow]
  rcases Nat.lt_trichotomy a.rank b.rank with hlt | heq | hgt
  · by_cases hb' : b = .infinity
    · rw [hinfinity.mpr hb', hb']
    · exact (not_rounds_of_rank_lt hlt hb' ha hb).elim
  · exact Magnitude.ext heq
  · by_cases ha' : a = .infinity
    · rw [hinfinity.mp ha', ha']
    · exact (not_rounds_of_rank_lt hgt ha' hb ha).elim

end Word

/-- The value of a magnitude, with infinity counted as the place of the next
one. -/
def Magnitude.value (m : Magnitude) : ℚ :=
  m.units / unitsPerOne

namespace Decimal

variable {a b c d : Decimal} {m : Magnitude}

/-!
## Reading by value
-/

theorem cast_powerOfTen (n : Nat) : (powerOfTen n : ℚ) = 10 ^ n := by
  change ((10 ^ n : Nat) : ℚ) = 10 ^ n
  push_cast
  rfl

theorem ten_zpow_eq (exponent : Int) :
    (10 : ℚ) ^ exponent =
      powerOfTen exponent.toNat / powerOfTen (-exponent).toNat := by
  have hsplit : exponent = exponent.toNat - (-exponent).toNat := by omega
  conv => lhs; rw [hsplit, zpow_sub₀ (by norm_num), zpow_natCast, zpow_natCast]
  rw [cast_powerOfTen, cast_powerOfTen]

theorem ten_zpow_pos (exponent : Int) : (0 : ℚ) < 10 ^ exponent := by
  positivity

theorem quotient_magnitude (d : Decimal) :
    ((d.significand * powerOfTen d.exponent.toNat * unitsPerOne : Nat) : ℚ) /
      powerOfTen (-d.exponent).toNat = d.value * unitsPerOne := by
  rw [value, ten_zpow_eq]
  push_cast
  ring

theorem rounds_value (d : Decimal) :
    Word.Rounds d.value (Binary64.signed false d.magnitude).toBits := by
  have hrounds := @Word.rounds_toBits
    (d.significand * powerOfTen d.exponent.toNat * unitsPerOne) _
    (powerOfTen_pos (-d.exponent).toNat)
  rwa [quotient_magnitude,
    mul_div_cancel_right₀ _ Word.unitsPerOne_pos.ne'] at hrounds

/-- The value of a decimal is rounded to a magnitude exactly if the decimal is
read as it. -/
theorem rounds_iff :
    Word.Rounds d.value (Binary64.signed false m).toBits <-> d.magnitude = m :=
  ⟨fun h => (rounds_value d).magnitude_unique h, fun h => h ▸ rounds_value d⟩

theorem rank_magnitude_le (h : a.value ≤ b.value) :
    a.magnitude.rank ≤ b.magnitude.rank := by
  apply Magnitude.rank_nearest_le (powerOfTen_pos _) (powerOfTen_pos _)
  rw [quotient_magnitude, quotient_magnitude]
  exact mul_le_mul_of_nonneg_right h Word.unitsPerOne_pos.le

theorem magnitude_eq_of_value_eq (h : a.value = b.value) :
    a.magnitude = b.magnitude :=
  Magnitude.ext (Nat.le_antisymm (rank_magnitude_le h.le) (rank_magnitude_le h.ge))

theorem magnitude_of_between (ha : a.magnitude = m) (hc : c.magnitude = m)
    (hab : a.value ≤ b.value) (hbc : b.value ≤ c.value) : b.magnitude = m := by
  apply Magnitude.ext
  apply Nat.le_antisymm
  · rw [← hc]
    exact rank_magnitude_le hbc
  · rw [← ha]
    exact rank_magnitude_le hab

theorem value_exactDecimal (m : Magnitude) :
    m.exactDecimal.value = m.value := by
  have hscale : (10 : ℚ) ^ unitPlaces = 5 ^ unitPlaces * unitsPerOne := by
    rw [Word.cast_unitsPerOne, unitPlaces, ← mul_pow]
    norm_num
  have hfive : (5 : ℚ) ^ unitPlaces ≠ 0 := by positivity
  rw [value, Magnitude.exactDecimal, Magnitude.value, zpow_neg, zpow_natCast,
    hscale, Nat.pow_eq]
  push_cast
  rw [← div_eq_mul_inv, mul_comm (5 ^ unitPlaces : ℚ),
    mul_div_mul_right _ _ hfive]

theorem magnitude_of_between_value (ha : a.magnitude = m)
    (h : a.value ≤ b.value ∧ b.value ≤ m.value ∨ m.value ≤ b.value ∧
      b.value ≤ a.value) :
    b.magnitude = m := by
  rw [← value_exactDecimal] at h
  rcases h with ⟨hab, hbm⟩ | ⟨hmb, hba⟩
  · exact magnitude_of_between ha m.magnitude_exactDecimal hab hbm
  · exact magnitude_of_between m.magnitude_exactDecimal ha hmb hba

/-- A decimal is read as a magnitude if it is closer to it than any other
magnitude can be. -/
theorem magnitude_of_close (h : 2 * 10 ^ 16 * |d.value - m.value| ≤ m.value) :
    d.magnitude = m := by
  apply Classical.byContradiction
  intro hne
  let q := d.value * unitsPerOne
  have hnearest : |(d.magnitude.units : ℚ) - q| ≤ |(m.units : ℚ) - q| := by
    have hdist := @Magnitude.dist_nearest_le_dist
      (d.significand * powerOfTen d.exponent.toNat * unitsPerOne) _
      (powerOfTen_pos (-d.exponent).toNat) m
    rwa [quotient_magnitude] at hdist
  have hgap := Magnitude.units_lt_mul_dist (Ne.symm hne)
  have htriangle := abs_sub_le (d.magnitude.units : ℚ) q m.units
  have hclose : 2 * 10 ^ 16 * |(m.units : ℚ) - q| ≤ m.units := by
    have hdist : |d.value - m.value| = |(m.units : ℚ) - q| / unitsPerOne := by
      rw [← Word.dist_div,
        mul_div_cancel_right₀ _ Word.unitsPerOne_pos.ne', abs_sub_comm,
        Magnitude.value]
    rw [hdist, Magnitude.value, ← mul_div_assoc,
      div_le_div_iff_of_pos_right Word.unitsPerOne_pos] at h
    exact h
  rw [abs_sub_comm q] at htriangle
  linarith

end Decimal

end LineCalc
