import LineCalc.Proofs.Binary64.Encoding
import LineCalc.Proofs.Binary64.Order

/-!
# Numbers of words

A word that is no NaN is a sign bit with the rank of a magnitude.  So such words
are different numbers, and the sign bit is that of the value.
-/

namespace LineCalc

namespace Word

open Binary64

variable {word other : UInt64}

theorem isNaN_iff : IsNaN word <-> infiniteRank < word.toNat % 2 ^ 63 := by
  have hmod := toNat_mod word
  have hexponent : exponent word < 2 ^ 11 := Nat.mod_lt _ (by decide)
  have hfraction : fraction word < 2 ^ 52 := Nat.mod_lt _ (by decide)
  unfold IsNaN infiniteRank
  omega

theorem ofBits_of_isNaN (h : IsNaN word) : ofBits word = nan :=
  dif_neg (Nat.not_le.mpr (isNaN_iff.mp h))

theorem rank_magnitude_of_not_isNaN (h : ¬ IsNaN word) :
    (magnitude word).rank = word.toNat % 2 ^ 63 :=
  Nat.min_eq_left (Nat.not_lt.mp (mt isNaN_iff.mpr h))

/-- A word that is no NaN is the sign bit with the rank of a magnitude. -/
theorem ofBits_of_not_isNaN (h : ¬ IsNaN word) :
    ofBits word = signed (decide (signBit ≤ word.toNat)) (magnitude word) := by
  have hrank := rank_magnitude_of_not_isNaN h
  have hle : word.toNat % signBit ≤ infiniteRank :=
    Nat.not_lt.mp (mt isNaN_iff.mpr h)
  have hmagnitude : (⟨word.toNat % signBit, hle⟩ : Magnitude) =
      magnitude word :=
    Magnitude.ext hrank.symm
  rw [ofBits, dif_pos hle, hmagnitude]

theorem unsigned_eq (h : ¬ IsNaN word) :
    unsigned word = (signed false (magnitude word)).toBits := by
  rw [toBits, if_neg Bool.false_ne_true, Nat.zero_add,
    rank_magnitude_of_not_isNaN h, unsigned]

theorem eq_of_ofBits_eq (h : ¬ IsNaN word) (h' : ¬ IsNaN other)
    (heq : ofBits word = ofBits other) : word = other := by
  rw [ofBits_of_not_isNaN h, ofBits_of_not_isNaN h', signed.injEq,
    decide_eq_decide, Magnitude.ext_iff, rank_magnitude_of_not_isNaN h,
    rank_magnitude_of_not_isNaN h'] at heq
  rcases heq with ⟨hsign, hrank⟩
  have hword := word.toNat_lt
  have hother := other.toNat_lt
  rw [← UInt64.toNat_inj]
  unfold signBit at hsign
  omega

theorem not_isNaN_of_isFinite (h : IsFinite word) : ¬ IsNaN word :=
  fun hnan => h hnan.left

theorem magnitude_ne_infinity (h : IsFinite word) :
    magnitude word ≠ .infinity := by
  intro hinfinity
  have hrank := rank_magnitude h
  have hfraction : fraction word < 2 ^ 52 := Nat.mod_lt _ (by decide)
  have hexponent : exponent word < 2 ^ 11 := Nat.mod_lt _ (by decide)
  have hinfinite : (magnitude word).rank = infiniteRank := by
    rw [hinfinity]; rfl
  unfold IsFinite at h
  rw [hinfinite] at hrank
  unfold infiniteRank binadeSize at hrank
  omega

theorem value_of_magnitude_eq_zero (h : IsFinite word)
    (hzero : magnitude word = .zero) :
    value word = 0 := by
  have hunits : (magnitude word).units = 0 := by rw [hzero]; rfl
  rw [value_eq h, hunits, Nat.cast_zero, zero_div, mul_zero]

theorem magnitude_ne_zero (h : IsFinite word) (hne : value word ≠ 0) :
    magnitude word ≠ .zero :=
  fun hzero => hne (value_of_magnitude_eq_zero h hzero)

theorem isZero_of_magnitude (h : ¬ IsNaN word)
    (hzero : magnitude word = .zero) : IsZero word := by
  have hmod := toNat_mod word
  have hrank : word.toNat % 2 ^ 63 = 0 := by
    rw [← rank_magnitude_of_not_isNaN h, hzero]
    rfl
  have hfinite : IsFinite word := by
    unfold IsFinite
    omega
  exact ⟨hfinite, value_of_magnitude_eq_zero hfinite hzero⟩

theorem signBit_le_iff (h : IsFinite word) (hne : value word ≠ 0) :
    signBit ≤ word.toNat <-> value word < 0 := by
  have hword := word.toNat_lt
  have hpos : (0 : ℚ) < (magnitude word).units / unitsPerOne :=
    div_pos (Nat.cast_pos.mpr (Magnitude.units_pos (magnitude_ne_zero h hne)))
      unitsPerOne_pos
  rw [value_eq h]
  by_cases hsign : signBit ≤ word.toNat
  · have hone : sign word = 1 := by
      unfold sign
      unfold signBit at hsign
      omega
    rw [hone, pow_one, neg_one_mul]
    exact iff_of_true hsign (neg_lt_zero.mpr hpos)
  · have hnone : sign word = 0 := by
      unfold sign
      unfold signBit at hsign
      omega
    rw [hnone, pow_zero, one_mul]
    exact iff_of_false hsign (not_lt.mpr hpos.le)

end Word

end LineCalc
