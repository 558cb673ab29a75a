import LineCalc.Binary64.Rounding

/-!
# Decimals

A decimal is a natural significand with a power of ten.  Numbers are read from
decimals by rounding the exact value once.
-/

namespace LineCalc

def powerOfTen (n : Nat) : Nat :=
  Nat.pow 10 n

theorem powerOfTen_pos (n : Nat) : 0 < powerOfTen n :=
  Nat.pow_pos (by decide)

theorem powerOfTen_zero : powerOfTen 0 = 1 :=
  rfl

theorem powerOfTen_succ (n : Nat) : powerOfTen (n + 1) = powerOfTen n * 10 :=
  rfl

/-- The decimal `significand * 10 ^ exponent`. -/
structure Decimal where
  significand : Nat
  exponent : Int
deriving DecidableEq, Repr

namespace Decimal

/-- The magnitude nearest to the decimal's exact value, ties to even. -/
def magnitude (d : Decimal) : Magnitude :=
  .nearest (d.significand * powerOfTen d.exponent.toNat * unitsPerOne)
    (powerOfTen (-d.exponent).toNat)

/-- The decimal digits of the significand, without leading zeros. -/
def digits (d : Decimal) : List Char :=
  Nat.toDigits 10 d.significand

/-- The exponent of the leading digit. -/
def leadingExponent (d : Decimal) : Int :=
  d.exponent + d.digits.length - 1

/-- The decimal `significand * 10 ^ exponent` with no trailing zero in its
significand; zero is written with exponent 0. -/
def normal (significand : Nat) (exponent : Int) : Decimal :=
  if significand = 0 then ⟨0, 0⟩
  else if significand % 10 = 0 then normal (significand / 10) (exponent + 1)
  else ⟨significand, exponent⟩
termination_by significand

theorem magnitude_mul_ten (significand : Nat) (exponent : Int) :
    (Decimal.mk (significand * 10) exponent).magnitude =
      (Decimal.mk significand (exponent + 1)).magnitude := by
  simp only [magnitude]
  by_cases hwhole : 0 ≤ exponent
  · have hup : (exponent + 1).toNat = exponent.toNat + 1 := by omega
    have hdown : (-exponent).toNat = 0 ∧ (-(exponent + 1)).toNat = 0 := by omega
    rw [hup, hdown.left, hdown.right, powerOfTen_succ]
    congr 2
    rw [Nat.mul_assoc, Nat.mul_comm 10]
  · have hup : exponent.toNat = 0 ∧ (exponent + 1).toNat = 0 := by omega
    have hdown : (-exponent).toNat = (-(exponent + 1)).toNat + 1 := by omega
    rw [hup.left, hup.right, hdown, powerOfTen_succ,
      Nat.mul_comm (powerOfTen _) 10, Nat.mul_comm significand 10, Nat.mul_assoc 10, Nat.mul_assoc 10,
      Magnitude.nearest_mul_left (by decide)]

@[simp] theorem magnitude_normal (significand : Nat) (exponent : Int) :
    (normal significand exponent).magnitude =
      (Decimal.mk significand exponent).magnitude := by
  fun_induction normal significand exponent with
  | case1 exponent =>
      simp only [magnitude, Nat.zero_mul]
      rw [Magnitude.nearest_zero (powerOfTen_pos _),
        Magnitude.nearest_zero (powerOfTen_pos _)]
  | case2 significand exponent _ _ ih =>
      rw [ih, ← magnitude_mul_ten]
      congr 2
      omega
  | case3 => rfl

end Decimal

end LineCalc
