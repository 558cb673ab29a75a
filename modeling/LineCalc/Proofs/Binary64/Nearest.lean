import LineCalc.Binary64.Rounding
import Mathlib.Algebra.Order.Field.Rat
import Mathlib.Algebra.Order.Field.Power
import Mathlib.Algebra.Ring.Parity
import Mathlib.Data.Nat.Cast.Order.Field
import Mathlib.Data.Rat.Cast.Defs
import Mathlib.Tactic.FieldSimp
import Mathlib.Tactic.Linarith
import Mathlib.Tactic.Positivity
import Mathlib.Tactic.Ring

/-!
# Nearest magnitudes

A quotient of units is rounded among the multiples of a power of two, and the
other magnitudes are either such multiples too or lie far below the quotient.
So no magnitude is nearer to the quotient than the one it is rounded to, and
where another one is as near, the rank is even.
-/

namespace LineCalc

/-!
## Naturals next to a rational
-/

section Naturals

variable {n t : Nat} {y : ℚ}

theorem le_of_dist_le_half (h : |(n : ℚ) - y| ≤ 1 / 2)
    (ht : (t : ℚ) ≤ y) : t ≤ n := by
  rcases abs_le.mp h with ⟨hbelow, _⟩
  have hlt : (t : ℚ) < (n + 1 : Nat) := by
    push_cast
    linarith
  exact Nat.lt_succ_iff.mp (Nat.cast_lt.mp hlt)

theorem ge_of_dist_le_half (h : |(n : ℚ) - y| ≤ 1 / 2)
    (ht : y < t) : n ≤ t := by
  rcases abs_le.mp h with ⟨_, habove⟩
  have hlt : (n : ℚ) < (t + 1 : Nat) := by
    push_cast
    linarith
  exact Nat.lt_succ_iff.mp (Nat.cast_lt.mp hlt)

theorem half_le_dist (h : |(n : ℚ) - y| ≤ 1 / 2) (hne : n ≠ t) :
    1 / 2 ≤ |(t : ℚ) - y| := by
  have hcast : |((n : Int) - t : ℚ)| = (|(n : Int) - t| : Int) := by
    push_cast; rfl
  have hapart : (1 : ℚ) ≤ |(n : ℚ) - t| := by
    have hint : 1 ≤ |(n : Int) - t| := Int.one_le_abs (by omega)
    exact_mod_cast hint
  have htriangle := abs_sub_le (n : ℚ) y t
  rw [abs_sub_comm y] at htriangle
  linarith

end Naturals

namespace TieRule

theorem exists_fraction (num : Nat) {den : Nat} (hden : 0 < den) :
    exists fraction : ℚ, (num : ℚ) / den = (num / den : Nat) + fraction ∧
      0 ≤ fraction ∧
      fraction < 1 ∧ (2 * (num % den) < den <-> fraction < 1 / 2) ∧
      (den < 2 * (num % den) <-> 1 / 2 < fraction) := by
  have hpos : (0 : ℚ) < den := Nat.cast_pos.mpr hden
  have hsplit : (num : ℚ) = den * (num / den : Nat) + (num % den : Nat) := by
    exact_mod_cast (Nat.div_add_mod num den).symm
  have hrest : ((num % den : Nat) : ℚ) < den :=
    Nat.cast_lt.mpr (Nat.mod_lt num hden)
  refine ⟨(num % den : Nat) / den, ?_,
    by positivity, (div_lt_one hpos).mpr hrest, ?_, ?_⟩
  · rw [hsplit, add_div, mul_div_cancel_left₀ _ hpos.ne']
  · rw [div_lt_div_iff₀ hpos two_pos, one_mul, mul_comm]
    exact_mod_cast Iff.rfl
  · rw [div_lt_div_iff₀ two_pos hpos, one_mul, mul_comm]
    exact_mod_cast Iff.rfl

theorem dist_round (num : Nat) {den : Nat} (hden : 0 < den) :
    |(toEven.round num den : ℚ) - num / den| < 1 / 2 ∨
      |(toEven.round num den : ℚ) - num / den| = 1 / 2 ∧
      Even (toEven.round num den) := by
  rcases exists_fraction num hden with
    ⟨fraction, hsplit, hnonneg, hlt, hbelow, habove⟩
  rw [hsplit]
  unfold round
  simp only [hbelow, habove]
  split
  · left
    rw [abs_lt]
    constructor <;> linarith
  · split
    · left
      rw [abs_lt]
      push_cast
      constructor <;> linarith
    · right
      have hhalf : fraction = 1 / 2 := by linarith
      subst hhalf
      rcases Nat.mod_two_eq_zero_or_one (num / den) with heven | hodd
      · rw [heven, Nat.add_zero]
        refine ⟨?_, Nat.even_iff.mpr heven⟩
        rw [sub_add_cancel_left, abs_neg, abs_of_pos (by norm_num)]
      · rw [hodd]
        refine ⟨?_, ?_⟩
        · push_cast
          rw [add_sub_add_left_eq_sub, abs_of_pos (by norm_num)]
          norm_num
        · rw [Nat.even_add_one, Nat.not_even_iff]
          exact hodd

theorem round_eq_or (tie : TieRule) (num den : Nat) :
    tie.round num den = num / den ∨ tie.round num den = num / den + 1 := by
  unfold round
  dsimp only
  split
  · exact Or.inl rfl
  · split
    · exact Or.inr rfl
    · cases tie with
      | toEven =>
          change num / den + num / den % 2 = num / den ∨
            num / den + num / den % 2 = num / den + 1
          omega
      | up => exact Or.inr rfl

theorem round_up_bounds (num : Nat) {den : Nat} (hden : 0 < den) :
    (num / den : ℚ) - up.round num den < 1 / 2 ∧
    (up.round num den : ℚ) - num / den ≤ 1 / 2 := by
  rcases exists_fraction num hden with
    ⟨fraction, hsplit, hnonneg, hlt, hbelow, habove⟩
  rw [hsplit]
  unfold round
  simp only [hbelow, habove]
  split
  · constructor <;> linarith
  · split <;> push_cast <;> constructor <;> linarith

theorem dist_round_le (tie : TieRule) (num : Nat) {den : Nat} (hden : 0 < den) :
    |(tie.round num den : ℚ) - num / den| ≤ 1 / 2 := by
  cases tie with
  | toEven =>
      rcases dist_round num hden with hlt | ⟨heq, _⟩
      · exact hlt.le
      · exact heq.le
  | up =>
      rcases round_up_bounds num hden with ⟨hdown, hup⟩
      rw [abs_le]
      constructor <;> linarith

theorem even_round_of_half_le (num : Nat) {den : Nat} (hden : 0 < den)
    (h : 1 / 2 ≤ |(toEven.round num den : ℚ) - num / den|) :
    Even (toEven.round num den) := by
  rcases dist_round num hden with hlt | ⟨_, heven⟩
  · exact absurd h (not_le.mpr hlt)
  · exact heven

end TieRule

namespace Magnitude

/-!
## Units of magnitudes
-/

section Units

variable {m : Magnitude} {k n : Nat}

theorem units_eq (m : Magnitude) : m.units = m.significand * 2 ^ m.exponent :=
  Nat.shiftLeft_eq _ _

theorem exists_units_eq (h : k ≤ m.exponent) :
    exists t, m.units = t * 2 ^ k := by
  rcases Nat.exists_eq_add_of_le h with ⟨d, hd⟩
  refine ⟨m.significand * 2 ^ d, ?_⟩
  rw [units_eq, hd, Nat.pow_add, Nat.mul_comm (2 ^ k), Nat.mul_assoc]

theorem two_mul_units_add_le (h : m.exponent < k) :
    2 * m.units + 2 ^ k ≤ 2 * binadeSize * 2 ^ k := by
  have hsignificand : m.significand + 1 ≤ 2 * binadeSize := m.significand_lt
  calc
    2 * m.units + 2 ^ k = m.significand * 2 ^ (m.exponent + 1) + 2 ^ k := by
      rw [units_eq, Nat.pow_succ']
      ring
    _ ≤ m.significand * 2 ^ k + 2 ^ k :=
      Nat.add_le_add_right
        (Nat.mul_le_mul_left _ (Nat.pow_le_pow_right two_pos h)) _
    _ = (m.significand + 1) * 2 ^ k := (Nat.succ_mul _ _).symm
    _ ≤ 2 * binadeSize * 2 ^ k := Nat.mul_le_mul_right _ hsignificand

theorem units_ofRank (hn : n ≤ 2 * binadeSize) (hk : k ≠ 0 -> binadeSize ≤ n)
    (hrank : k * binadeSize + n ≤ infiniteRank) :
    (ofRank (k * binadeSize + n)).units = n * 2 ^ k := by
  have hrank' : (ofRank (k * binadeSize + n)).rank = k * binadeSize + n :=
    Nat.min_eq_left hrank
  rcases Nat.lt_or_eq_of_le hn with hlt | rfl
  · have hexponent : (ofRank (k * binadeSize + n)).exponent = k := by
      rw [exponent, hrank']
      unfold binadeSize at *
      omega
    rw [units_eq, significand, hexponent, hrank', Nat.add_sub_cancel_left]
  · have hexponent :
        (ofRank (k * binadeSize + 2 * binadeSize)).exponent = k + 1 := by
      rw [exponent, hrank']
      unfold binadeSize
      omega
    have hsignificand : k * binadeSize + 2 * binadeSize - (k + 1) * binadeSize =
        binadeSize := by
      unfold binadeSize
      omega
    rw [units_eq, significand, hexponent, hrank', hsignificand]
    ring

end Units

/-!
## Rounding a quotient
-/

/-- The power of two of which a quotient is rounded to a multiple. -/
def spacing (num den : Nat) : Nat :=
  (num / den).log2 - 52

def count (num den : Nat) : Nat :=
  TieRule.toEven.round num (den <<< spacing num den)

section Quotient

variable {num den : Nat}

theorem nearest_eq :
    nearest num den = ofRank (spacing num den * binadeSize + count num den) :=
  rfl

theorem quotient_shift (num den k : Nat) :
    (num : ℚ) / (den <<< k : Nat) = num / den / 2 ^ k := by
  rw [Nat.shiftLeft_eq, div_div]
  push_cast
  rfl

theorem shift_pos (hden : 0 < den) (k : Nat) : 0 < den <<< k := by
  rw [Nat.shiftLeft_eq]
  exact Nat.mul_pos hden (Nat.two_pow_pos k)

theorem dist_count_le (hden : 0 < den) :
    |(count num den : ℚ) - num / den / 2 ^ spacing num den| ≤ 1 / 2 := by
  rw [← quotient_shift]
  exact TieRule.dist_round_le .toEven num (shift_pos hden _)

theorem even_count_of_half_le (hden : 0 < den)
    (h : 1 / 2 ≤ |(count num den : ℚ) - num / den / 2 ^ spacing num den|) :
    Even (count num den) := by
  rw [← quotient_shift] at h
  exact TieRule.even_round_of_half_le num (shift_pos hden _) h

theorem le_quotient (h : spacing num den ≠ 0) :
    (binadeSize * 2 ^ spacing num den : ℚ) ≤ num / den := by
  unfold spacing at *
  have hlog : (num / den).log2 = 52 + ((num / den).log2 - 52) := by omega
  have hne : num / den ≠ 0 := by
    intro hzero
    rw [hzero, Nat.log2_zero] at h
    exact h rfl
  have hle : binadeSize * 2 ^ ((num / den).log2 - 52) ≤ num / den := by
    calc
      binadeSize * 2 ^ ((num / den).log2 - 52) = 2 ^ (num / den).log2 := by
        conv => rhs; rw [hlog, Nat.pow_add]
        rfl
      _ ≤ num / den := Nat.log2_self_le hne
  have hcast : ((num / den : Nat) : ℚ) ≤ num / den := Nat.cast_div_le
  exact le_trans (by exact_mod_cast hle) hcast

theorem quotient_lt (hden : 0 < den) :
    (num / den : ℚ) < 2 * binadeSize * 2 ^ spacing num den := by
  have hlt : num / den < 2 * binadeSize * 2 ^ spacing num den := by
    calc
      num / den < 2 ^ ((num / den).log2 + 1) := Nat.lt_log2_self
      _ ≤ 2 ^ (53 + spacing num den) := by
        apply Nat.pow_le_pow_right two_pos
        unfold spacing
        omega
      _ = 2 * binadeSize * 2 ^ spacing num den := Nat.pow_add 2 53 _
  have hnum : num < 2 * binadeSize * 2 ^ spacing num den * den :=
    (Nat.div_lt_iff_lt_mul hden).mp hlt
  rw [div_lt_iff₀ (Nat.cast_pos.mpr hden)]
  exact_mod_cast hnum

theorem le_count (hden : 0 < den) (h : spacing num den ≠ 0) :
    binadeSize ≤ count num den := by
  apply le_of_dist_le_half (dist_count_le hden)
  rw [le_div_iff₀ (by positivity)]
  exact le_quotient h

theorem count_le (hden : 0 < den) : count num den ≤ 2 * binadeSize := by
  apply ge_of_dist_le_half (dist_count_le hden)
  rw [div_lt_iff₀ (by positivity)]
  exact_mod_cast quotient_lt hden

/-!
## Overflow
-/

@[irreducible] def lastExponent : Nat := 2045

theorem infiniteRank_eq : infiniteRank = (lastExponent + 2) * binadeSize := by
  unfold lastExponent
  rfl

theorem nearest_eq_infinity_iff_rank :
    nearest num den = infinity <->
      infiniteRank ≤ spacing num den * binadeSize + count num den := by
  rw [Magnitude.ext_iff, nearest_eq, rank_ofRank, infinity,
    rank_ofRank, Nat.min_self]
  omega

theorem le_spacing_of_infinity (hden : 0 < den)
    (h : nearest num den = infinity) :
    lastExponent ≤ spacing num den ∧ (spacing num den = lastExponent ->
      count num den = 2 * binadeSize) := by
  rw [nearest_eq_infinity_iff_rank, infiniteRank_eq] at h
  have hcount := @count_le num _ hden
  unfold binadeSize at *
  omega

theorem two_mul_binadeSize_le {j k : Nat} (h : j < k) :
    (2 * binadeSize * 2 ^ j : ℚ) ≤ binadeSize * 2 ^ k := by
  have hpower : (2 : ℚ) ^ (j + 1) ≤ 2 ^ k :=
    pow_le_pow_right₀ one_le_two (Nat.succ_le_of_lt h)
  calc
    (2 * binadeSize * 2 ^ j : ℚ) = binadeSize * 2 ^ (j + 1) := by
      rw [pow_succ']; ring
    _ ≤ binadeSize * 2 ^ k := mul_le_mul_of_nonneg_left hpower (by positivity)

theorem le_quotient_of_infinity (hden : 0 < den)
    (h : nearest num den = infinity) :
    (2 * binadeSize - 1 / 2) * 2 ^ lastExponent ≤ (num / den : ℚ) := by
  rcases le_spacing_of_infinity hden h with ⟨hspacing, hcount⟩
  rcases Nat.eq_or_lt_of_le hspacing with hlast | hpast
  · have hnear := @dist_count_le num _ hden
    rw [hcount hlast.symm, ← hlast, abs_le] at hnear
    rw [← le_div_iff₀ (by positivity)]
    push_cast at hnear
    linarith
  · have hquotient := le_quotient (Nat.ne_of_gt (Nat.zero_lt_of_lt hpast))
    have hscaled := two_mul_binadeSize_le hpast
    have hpos : (0 : ℚ) < 2 ^ lastExponent := by positivity
    linarith

theorem quotient_lt_of_spacing_lt (hden : 0 < den)
    (h : spacing num den < lastExponent) :
    (num / den : ℚ) < (2 * binadeSize - 1 / 2) * 2 ^ lastExponent := by
  have hquotient := @quotient_lt num _ hden
  have hscaled := two_mul_binadeSize_le h
  have hlarge : (1 : ℚ) * 2 ^ lastExponent ≤ binadeSize * 2 ^ lastExponent :=
    mul_le_mul_of_nonneg_right (by exact_mod_cast (by decide : 1 ≤ binadeSize))
      (by positivity)
  have hpos : (0 : ℚ) < 2 ^ lastExponent := by positivity
  linarith

/-- At the last exponent a count is rounded up to the next one: if it were one
less, it would be odd, and the quotient is at least halfway to the next. -/
theorem le_count_of_lastExponent (hden : 0 < den)
    (hlast : spacing num den = lastExponent)
    (h : (2 * binadeSize - 1 / 2) * 2 ^ lastExponent ≤ (num / den : ℚ)) :
    2 * binadeSize ≤ count num den := by
  have hnear := @dist_count_le num _ hden
  have hquotient := (le_div_iff₀ (by positivity)).mpr h
  apply Classical.byContradiction
  intro hless
  have hle : (count num den : ℚ) + 1 ≤ 2 * binadeSize := by
    exact_mod_cast Nat.not_le.mp hless
  rw [hlast] at hnear
  rcases abs_le.mp hnear with ⟨hbelow, _⟩
  have heven : Even (count num den) := by
    apply even_count_of_half_le hden
    rw [hlast, abs_sub_comm]
    exact le_trans (by linarith) (le_abs_self _)
  have hodd : count num den + 1 = 2 * binadeSize := by
    apply Nat.le_antisymm (Nat.not_le.mp hless)
    have hge : (2 * binadeSize : ℚ) ≤ count num den + 1 := by linarith
    exact_mod_cast hge
  rcases heven with ⟨half, hhalf⟩
  omega

theorem infinity_of_le_quotient (hden : 0 < den)
    (h : (2 * binadeSize - 1 / 2) * 2 ^ lastExponent ≤ (num / den : ℚ)) :
    nearest num den = infinity := by
  rw [nearest_eq_infinity_iff_rank, infiniteRank_eq]
  rcases Nat.lt_trichotomy (spacing num den) lastExponent with
    hbelow | hlast | hpast
  · exact absurd h (not_le.mpr (quotient_lt_of_spacing_lt hden hbelow))
  · have hcount := le_count_of_lastExponent hden hlast h
    rw [hlast, Nat.add_mul]
    exact Nat.add_le_add_left hcount _
  · have hcount := le_count hden (Nat.ne_of_gt (Nat.zero_lt_of_lt hpast))
    rw [Nat.succ_mul]
    exact Nat.add_le_add (Nat.mul_le_mul_right _ hpast) hcount

/-!
## The nearest magnitude
-/

theorem units_nearest (hden : 0 < den) (hfinite : nearest num den ≠ infinity) :
    (nearest num den).units = count num den * 2 ^ spacing num den := by
  rw [Ne, nearest_eq_infinity_iff_rank, Nat.not_le] at hfinite
  exact units_ofRank (count_le hden) (le_count hden) hfinite.le

theorem dist_mul_two_pow (n k : Nat) (q : ℚ) :
    |((n * 2 ^ k : Nat) : ℚ) - q| = |(n : ℚ) - q / 2 ^ k| * 2 ^ k := by
  have hpos : (0 : ℚ) < 2 ^ k := by positivity
  have hsub : ((n * 2 ^ k : Nat) : ℚ) - q = ((n : ℚ) - q / 2 ^ k) * 2 ^ k := by
    push_cast
    rw [sub_mul, div_mul_cancel₀ _ hpos.ne']
  rw [hsub, abs_mul, abs_of_pos hpos]

theorem half_step_le_dist (hden : 0 < den) {m : Magnitude}
    (hne : m.units ≠ count num den * 2 ^ spacing num den) :
    (1 / 2 : ℚ) * 2 ^ spacing num den ≤ |(m.units : ℚ) - num / den| := by
  by_cases hstep : spacing num den ≤ m.exponent
  · rcases exists_units_eq hstep with ⟨t, ht⟩
    rw [ht, dist_mul_two_pow]
    have hcount : count num den ≠ t := by
      intro heq
      rw [ht, heq] at hne
      exact hne rfl
    exact mul_le_mul_of_nonneg_right (half_le_dist (dist_count_le hden) hcount)
      (by positivity)
  · have hlow : m.exponent < spacing num den := Nat.not_le.mp hstep
    have hunits : (2 * m.units + 2 ^ spacing num den : ℚ) ≤
        2 * binadeSize * 2 ^ spacing num den := by
      exact_mod_cast two_mul_units_add_le hlow
    have hquotient := le_quotient (Nat.ne_of_gt (Nat.zero_lt_of_lt hlow))
    rw [abs_sub_comm]
    exact le_trans (by linarith) (le_abs_self _)

/-- No magnitude is nearer. -/
theorem dist_nearest_le (hden : 0 < den) (hfinite : nearest num den ≠ infinity)
    (m : Magnitude) :
    |((nearest num den).units : ℚ) - num /
      den| ≤ |(m.units : ℚ) - num / den| := by
  by_cases heq : m.units = count num den * 2 ^ spacing num den
  · rw [units_nearest hden hfinite, heq]
  · rw [units_nearest hden hfinite, dist_mul_two_pow]
    refine le_trans ?_ (half_step_le_dist hden heq)
    exact mul_le_mul_of_nonneg_right (dist_count_le hden) (by positivity)

/-- Where another magnitude is as near, the rank is even. -/
theorem even_rank_nearest (hden : 0 < den)
    (hfinite : nearest num den ≠ infinity) {m : Magnitude}
    (hne : m.units ≠ (nearest num den).units)
    (htie : |((nearest num den).units : ℚ) - num /
      den| = |(m.units : ℚ) - num / den|) :
    Even (nearest num den).rank := by
  have hpos : (0 : ℚ) < 2 ^ spacing num den := by positivity
  rw [units_nearest hden hfinite] at hne htie
  have hhalf := half_step_le_dist hden hne
  rw [← htie, dist_mul_two_pow] at hhalf
  have heven := even_count_of_half_le hden (le_of_mul_le_mul_right hhalf hpos)
  rw [Ne, nearest_eq_infinity_iff_rank, Nat.not_le] at hfinite
  rw [nearest_eq, rank_ofRank, Nat.min_eq_left hfinite.le]
  exact (Even.mul_left (by decide) _).add heven

end Quotient

end Magnitude

end LineCalc
