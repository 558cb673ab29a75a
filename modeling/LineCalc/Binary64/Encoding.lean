import LineCalc.Binary64.Basic
import Mathlib.Algebra.Order.Field.Power
import Mathlib.Algebra.Order.Field.Rat
import Mathlib.Algebra.Ring.Parity

/-!
# Words

A double is a word of 64 bits: a sign bit, eleven bits for the exponent and 52
bits for the fraction.  Exponents of ones only are kept for infinities and NaNs,
and every other word has a rational value.  A rational is rounded to the word
with the nearest value.
-/

namespace LineCalc

namespace Word

def sign (word : UInt64) : Nat :=
  word.toNat / 2 ^ 63

def exponent (word : UInt64) : Nat :=
  word.toNat / 2 ^ 52 % 2 ^ 11

def fraction (word : UInt64) : Nat :=
  word.toNat % 2 ^ 52

def IsFinite (word : UInt64) : Prop :=
  exponent word ≠ 2047

def IsNaN (word : UInt64) : Prop :=
  exponent word = 2047 ∧ fraction word ≠ 0

/-- The word of positive infinity. -/
def infinity : UInt64 := 0x7ff0000000000000

/-- The value of a finite word.  Those with the least exponent are subnormal:
they have no hidden bit, and their exponent counts as 1. -/
def value (word : UInt64) : ℚ :=
  (-1) ^ sign word *
    if exponent word =
      0 then (fraction word : ℚ) / 2 ^ 52 * (2 : ℚ) ^ (-1022 : Int)
    else (1 + (fraction word : ℚ) / 2 ^ 52) *
      (2 : ℚ) ^ ((exponent word : Int) - 1023)

/-- The word to which a rational that is not negative is rounded. -/
structure Rounds (x : ℚ) (word : UInt64) : Prop where
  overflow : word = infinity <-> 2 ^ 1024 - 2 ^ 970 ≤ x
  finite : word ≠ infinity -> IsFinite word
  nearest : word ≠ infinity -> forall other, IsFinite other ->
    |value word - x| ≤ |value other - x|
  /-- Of two values that are equally near it is the one whose fraction is
  even. -/
  tie : word ≠ infinity -> forall other, IsFinite other ->
    value other ≠ value word ->
    |value word - x| = |value other - x| -> Even (fraction word)

/-- The same word with the sign of positive numbers. -/
def unsigned (word : UInt64) : UInt64 :=
  .ofNat (word.toNat % 2 ^ 63)

/-- A rational that is not zero is rounded as its absolute value is, and keeps
its sign. -/
structure RoundsSigned (x : ℚ) (word : UInt64) : Prop where
  rounds : Rounds |x| (unsigned word)
  negative : x < 0 <-> value word < 0

def IsZero (word : UInt64) : Prop :=
  IsFinite word ∧ value word = 0

end Word

end LineCalc
