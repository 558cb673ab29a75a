import LineCalc.Proofs.Binary64.Nearest
import Mathlib.Order.Monotone.Basic

/-!
# The order of magnitudes

Magnitudes of a higher rank have more units, and the step to them is not too
small beside the units themselves.  With infinity counted as the place of the
next magnitude, no magnitude is nearer to a quotient than the one it is rounded
to, and so rounding keeps the order.
-/

namespace LineCalc

/-!
## Distances on both sides
-/

section Distances

variable {low high x : ℚ}

theorem add_le_two_mul_of_dist_le (hlt : low < high)
    (h : |high - x| ≤ |low - x|) :
    high + low ≤ 2 * x := by
  rw [abs_sub_comm low] at h
  rcases le_total x low with hx | hx
  · rw [abs_of_nonneg (by linarith), abs_of_nonpos (by linarith)] at h
    linarith
  · rw [abs_of_nonneg (by linarith : 0 ≤ x - low), abs_le] at h
    linarith

theorem two_mul_le_add_of_dist_le (hlt : low < high)
    (h : |low - x| ≤ |high - x|) :
    2 * x ≤ high + low := by
  rcases le_total x high with hx | hx
  · rw [abs_of_nonneg (by linarith : 0 ≤ high - x), abs_le] at h
    linarith
  · rw [abs_of_nonpos (by linarith), abs_of_nonpos (by linarith)] at h
    linarith

end Distances

namespace Magnitude

/-!
## Units of consecutive ranks
-/

section Steps

variable {a b m : Magnitude}

theorem rank_injective : Function.Injective rank :=
  fun _ _ h => Magnitude.ext h

theorem ne_infinity_of_rank_lt (h : a.rank < b.rank) : a ≠ infinity := by
  rintro rfl
  exact Nat.not_lt.mpr b.rank_le h

theorem units_succ (h : m.rank < infiniteRank) :
    (ofRank (m.rank + 1)).units = (m.significand + 1) * 2 ^ m.exponent := by
  have hsplit := m.exponent_mul_add_significand
  have hunits := @units_ofRank m.exponent (m.significand + 1) m.significand_lt
    (fun hne => Nat.le_succ_of_le (le_significand hne))
  rw [← Nat.add_assoc, hsplit] at hunits
  exact hunits h

theorem units_ofRank_mono : Monotone fun rank => (ofRank rank).units := by
  apply monotone_nat_of_le_succ
  intro rank
  rcases Nat.lt_or_ge rank infiniteRank with hfinite | hinfinite
  · have hrank : (ofRank rank).rank = rank := Nat.min_eq_left hfinite.le
    have hsucc := @units_succ (ofRank rank) (by rwa [hrank])
    rw [hrank] at hsucc
    rw [hsucc, units_eq]
    exact Nat.mul_le_mul_right _ (Nat.le_succ _)
  · have hsame : ofRank (rank + 1) = ofRank rank := by
      ext
      rw [rank_ofRank, rank_ofRank, Nat.min_eq_right hinfinite,
        Nat.min_eq_right (Nat.le_succ_of_le hinfinite)]
    rw [hsame]

theorem units_le_units (h : a.rank ≤ b.rank) : a.units ≤ b.units := by
  have hunits := units_ofRank_mono h
  simpa only [ofRank_rank] using hunits

theorem units_le_mul_sub (h : a.rank < b.rank) :
    a.units < b.units ∧ b.units ≤ 2 * binadeSize * (b.units - a.units) := by
  let before := ofRank (b.rank - 1)
  have hb := b.rank_le
  have hrank : before.rank = b.rank - 1 := Nat.min_eq_left (by omega)
  have hnext : before.rank + 1 = b.rank := by omega
  have hunits : b.units = (before.significand + 1) * 2 ^ before.exponent := by
    rw [← units_succ (by omega), hnext, ofRank_rank]
  have hle : a.units ≤ before.significand * 2 ^ before.exponent := by
    rw [← units_eq]
    exact units_le_units (by omega)
  have hstep : 0 < 2 ^ before.exponent := Nat.two_pow_pos _
  rw [Nat.succ_mul] at hunits
  have hgap : 2 ^ before.exponent ≤ b.units - a.units := by omega
  refine ⟨by omega, ?_⟩
  calc
    b.units = (before.significand + 1) * 2 ^ before.exponent := by
      rw [hunits, Nat.succ_mul]
    _ ≤ 2 * binadeSize * 2 ^ before.exponent :=
      Nat.mul_le_mul_right _ before.significand_lt
    _ ≤ 2 * binadeSize * (b.units - a.units) := Nat.mul_le_mul_left _ hgap

theorem units_lt_units (h : a.rank < b.rank) : a.units < b.units :=
  (units_le_mul_sub h).left

theorem units_pos (h : m ≠ zero) : 0 < m.units := by
  have hrank : zero.rank < m.rank :=
    Nat.pos_of_ne_zero fun hzero => h (Magnitude.ext hzero)
  exact Nat.zero_lt_of_lt (units_lt_units hrank)

theorem units_inj : a.units = b.units <-> a = b := by
  refine ⟨fun h => ?_, fun h => h ▸ rfl⟩
  apply Magnitude.ext
  rcases Nat.lt_trichotomy a.rank b.rank with hlt | heq | hgt
  · exact absurd h (units_lt_units hlt).ne
  · exact heq
  · exact absurd h (units_lt_units hgt).ne'

/-- Magnitudes that differ are apart by more than `10 ^ (-16)` of either. -/
theorem units_lt_mul_dist (h : a ≠ b) :
    (a.units : ℚ) < 10 ^ 16 * |(b.units : ℚ) - a.units| := by
  have hlarge : (2 * binadeSize : ℚ) < 10 ^ 16 := by
    exact_mod_cast (by decide : 2 * binadeSize < 10 ^ 16)
  have hgap : (a.units : ℚ) ≤ 2 * binadeSize * |(b.units : ℚ) - a.units| := by
    rcases Nat.lt_or_gt_of_ne (rank_injective.ne h) with hlt | hgt
    · rcases units_le_mul_sub hlt with ⟨hless, hle⟩
      rw [← Nat.cast_sub hless.le, Nat.abs_cast]
      exact_mod_cast hless.le.trans hle
    · rcases units_le_mul_sub hgt with ⟨hless, hle⟩
      rw [abs_sub_comm, ← Nat.cast_sub hless.le, Nat.abs_cast]
      exact_mod_cast hle
  have hne : (b.units : ℚ) - a.units ≠ 0 := by
    rw [sub_ne_zero, Ne, Nat.cast_inj]
    exact fun heq => h (units_inj.mp heq.symm)
  exact lt_of_le_of_lt hgap (mul_lt_mul_of_pos_right hlarge (abs_pos.mpr hne))

end Steps

/-!
## Rounding keeps the order
-/

section Rounding

variable {num den num' den' : Nat} {m : Magnitude}

theorem nearest_congr (hden : 0 < den) (hden' : 0 < den')
    (h : (num / den : ℚ) = num' / den') :
    nearest num den = nearest num' den' := by
  rw [div_eq_div_iff (Nat.cast_ne_zero.mpr hden.ne')
    (Nat.cast_ne_zero.mpr hden'.ne')] at h
  have hcross : den' * num = den * num' := by
    rw [Nat.mul_comm den', Nat.mul_comm den]
    exact_mod_cast h
  calc
    nearest num den = nearest (den' * num) (den' * den) :=
      (nearest_mul_left hden' num den).symm
    _ = nearest (den * num') (den * den') := by rw [hcross, Nat.mul_comm den']
    _ = nearest num' den' := nearest_mul_left hden num' den'

theorem units_infinity :
    infinity.units = 2 * binadeSize * 2 ^ lastExponent := by
  have hrank : lastExponent * binadeSize + 2 * binadeSize = infiniteRank := by
    rw [infiniteRank_eq, Nat.add_mul]
  have hunits := @units_ofRank lastExponent (2 * binadeSize) le_rfl
    (fun _ => Nat.le_mul_of_pos_left _ two_pos) hrank.le
  rwa [hrank] at hunits

theorem units_add_le_of_ne_infinity (h : m ≠ infinity) :
    m.units + 2 ^ lastExponent ≤ 2 * binadeSize * 2 ^ lastExponent := by
  have hrank : m.rank < infiniteRank :=
    Nat.lt_of_le_of_ne m.rank_le fun heq => h (Magnitude.ext (by rw [heq]; rfl))
  have hexponent : m.exponent < lastExponent + 1 := by
    rw [infiniteRank_eq] at hrank
    unfold exponent binadeSize at *
    omega
  have hunits := two_mul_units_add_le hexponent
  rw [Nat.pow_succ, ← Nat.mul_assoc] at hunits
  generalize 2 * binadeSize * 2 ^ lastExponent = whole at *
  omega

theorem dist_nearest_le_dist (hden : 0 < den) (m : Magnitude) :
    |((nearest num den).units : ℚ) - num /
      den| ≤ |(m.units : ℚ) - num / den| := by
  by_cases hnearest : nearest num den = infinity
  · have hquotient := le_quotient_of_infinity hden hnearest
    rw [hnearest, units_infinity]
    by_cases hm : m = infinity
    · rw [hm, units_infinity]
    · have hunits : (m.units : ℚ) + 2 ^ lastExponent ≤
          2 * binadeSize * 2 ^ lastExponent := by
        exact_mod_cast units_add_le_of_ne_infinity hm
      have hstep : (0 : ℚ) < 2 ^ lastExponent := by positivity
      rw [abs_sub_comm (m.units : ℚ),
        abs_of_nonneg (by linarith : 0 ≤ (num / den : ℚ) - m.units)]
      push_cast
      rw [abs_le]
      constructor <;> linarith
  · exact dist_nearest_le hden hnearest m

/-- A greater quotient is not rounded to a lower magnitude: otherwise both would
lie halfway between the two magnitudes, and so be equal. -/
theorem rank_nearest_le (hden : 0 < den) (hden' : 0 < den')
    (h : (num / den : ℚ) ≤ num' / den') :
    (nearest num den).rank ≤ (nearest num' den').rank := by
  apply Nat.le_of_not_lt
  intro hlt
  have hunits : ((nearest num' den').units : ℚ) < (nearest num den).units :=
    Nat.cast_lt.mpr (units_lt_units hlt)
  have hupper := @dist_nearest_le_dist num den hden (nearest num' den')
  have hlower := @dist_nearest_le_dist num' den' hden' (nearest num den)
  have hmiddle := add_le_two_mul_of_dist_le hunits hupper
  have hmiddle' := two_mul_le_add_of_dist_le hunits hlower
  have heq : (num / den : ℚ) = num' / den' := by linarith
  rw [nearest_congr hden hden' heq] at hlt
  exact Nat.lt_irrefl _ hlt

end Rounding

end Magnitude

end LineCalc
