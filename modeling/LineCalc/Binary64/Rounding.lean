import LineCalc.Binary64.Basic

/-!
# Rounding

An exact quotient of naturals is rounded in two places: to the nearest
magnitude, where a half goes to the even neighbour, and to a decimal of few
digits, where the writer of the number says which way a half goes.

Rounding depends on the quotient alone (`nearest_mul_left`), and a magnitude is
nearest to itself (`nearest_units`).
-/

namespace LineCalc

/-!
## Rounding to naturals
-/

/-- Which neighbour takes a quotient that lies halfway between two naturals. -/
inductive TieRule
  | toEven
  | up
deriving DecidableEq, Repr

namespace TieRule

/-- The natural number nearest to `num / den`. -/
def round (tie : TieRule) (num den : Nat) : Nat :=
  let quotient := num / den
  let rest := num % den
  if 2 * rest < den then quotient
  else if den < 2 * rest then quotient + 1
  else
    match tie with
    | .toEven => quotient + quotient % 2
    | .up => quotient + 1

theorem round_mul_right (tie : TieRule) (n : Nat) {den : Nat} (h : 0 < den) :
    tie.round (n * den) den = n := by
  simp [round, Nat.mul_div_cancel _ h, h]

theorem round_mul_left (tie : TieRule) {c : Nat} (h : 0 < c) (num den : Nat) :
    tie.round (c * num) (c * den) = tie.round num den := by
  have hbelow (a b : Nat) : 2 * (c * a) < c * b <-> 2 * a < b := by
    rw [Nat.mul_left_comm]
    exact Nat.mul_lt_mul_left h
  have habove (a b : Nat) : c * b < 2 * (c * a) <-> b < 2 * a := by
    rw [Nat.mul_left_comm]
    exact Nat.mul_lt_mul_left h
  simp only [round, Nat.mul_div_mul_left _ _ h, Nat.mul_mod_mul_left, hbelow,
    habove]

end TieRule

/-!
## Rounding to magnitudes
-/

/-- The binary places of a unit, `2 ^ (-1074)`.  It has as many decimal
places. -/
def unitPlaces : Nat := 1074

def unitsPerOne : Nat := 1 <<< unitPlaces

namespace Magnitude

/-- The magnitude nearest to `num / den` units, ties to the even rank.

Below `2 ^ 53` units the magnitudes are the naturals.  From `2 ^ k` units to
`2 ^ (k + 1)` they are spaced by `2 ^ (k - 52)`, so the quotient is rounded to a
multiple of that, and every doubling takes `binadeSize` ranks.  A significand
that rounds up to `2 ^ 53` lands on the first rank of the next doubling, and a
rank past the last finite one is infinity. -/
def nearest (num den : Nat) : Magnitude :=
  let exponent := (num / den).log2 - 52
  .ofRank (exponent * binadeSize + TieRule.toEven.round num (den <<< exponent))

theorem nearest_mul_left {c : Nat} (h : 0 < c) (num den : Nat) :
    nearest (c * num) (c * den) = nearest num den := by
  simp only [nearest, Nat.mul_div_mul_left _ _ h, Nat.shiftLeft_eq,
    Nat.mul_assoc, TieRule.round_mul_left _ h]

theorem nearest_zero {den : Nat} (h : 0 < den) : nearest 0 den = zero := by
  ext
  simp [nearest, TieRule.round, zero, h, Nat.log2_zero]

/-!
## Significands
-/

theorem exponent_mul_add_significand (m : Magnitude) :
    m.exponent * binadeSize + m.significand = m.rank := by
  have hle : m.exponent * binadeSize ≤ m.rank := by
    unfold exponent binadeSize
    omega
  unfold significand
  omega

theorem significand_lt (m : Magnitude) : m.significand < 2 * binadeSize := by
  unfold significand exponent binadeSize
  omega

theorem le_significand {m : Magnitude} (h : m.exponent ≠ 0) :
    binadeSize ≤ m.significand := by
  unfold significand exponent binadeSize at *
  omega

theorem log2_units_sub (m : Magnitude) : m.units.log2 - 52 = m.exponent := by
  have hlt := m.significand_lt
  rw [units, Nat.shiftLeft_eq]
  by_cases hleast : m.exponent = 0
  · rw [hleast, Nat.pow_zero, Nat.mul_one]
    have hlog : m.significand.log2 < 53 := by
      by_cases hzero : m.significand = 0
      · simp [hzero]
      · exact (Nat.log2_lt hzero).mpr hlt
    omega
  · have hle := le_significand hleast
    have hne : m.significand ≠ 0 := by
      unfold binadeSize at hle
      omega
    have hpower := Nat.two_pow_pos m.exponent
    have hlog : (m.significand * 2 ^ m.exponent).log2 = 52 + m.exponent := by
      apply (Nat.log2_eq_iff (Nat.mul_ne_zero hne (Nat.ne_of_gt hpower))).mpr
      constructor
      · rw [Nat.pow_add]
        exact Nat.mul_le_mul_right _ hle
      · rw [Nat.add_right_comm, Nat.pow_add]
        exact Nat.mul_lt_mul_of_pos_right hlt hpower
    omega

theorem nearest_units (m : Magnitude) : nearest m.units 1 = m := by
  have hpos : 0 < 1 <<< m.exponent := by
    rw [Nat.shiftLeft_eq, Nat.one_mul]
    exact Nat.two_pow_pos _
  have hunits : m.units = m.significand * (1 <<< m.exponent) := by
    rw [units, Nat.shiftLeft_eq, Nat.shiftLeft_eq, Nat.one_mul]
  ext
  simp only [nearest, Nat.div_one, log2_units_sub, rank_ofRank]
  rw [hunits, TieRule.round_mul_right _ _ hpos, exponent_mul_add_significand]
  exact Nat.min_eq_left m.rank_le

end Magnitude

end LineCalc
