import LineCalc.Proofs.Decimal.Value

/-!
# Grids of decimals

The multiples of a power of ten lie on a grid.  Those that are read as one
magnitude follow each other around its value, so the nearest of them is one of
the two points next to the value, if there is any.
-/

namespace LineCalc

namespace Decimal

/-!
## Leading digits
-/

theorem lt_pow_length (n : Nat) : n < 10 ^ (Nat.toDigits 10 n).length :=
  (Nat.length_toDigits_le_iff (by decide) Nat.length_toDigits_pos).mp le_rfl

theorem pow_le_of_ne_zero {n : Nat} (h : n ≠ 0) :
    10 ^ ((Nat.toDigits 10 n).length - 1) ≤ n := by
  have hpos := @Nat.length_toDigits_pos 10 n
  cases hlength : (Nat.toDigits 10 n).length - 1 with
  | zero => exact Nat.one_le_iff_ne_zero.mpr h
  | succ k =>
      apply Nat.le_of_not_lt
      intro hlt
      have hle := (Nat.length_toDigits_le_iff (by decide) k.succ_pos).mpr hlt
      omega

theorem pow_length_bounds {num den : Nat} (hden : 0 < den) (h : den ≤ num) :
    (10 : ℚ) ^ ((Nat.toDigits 10 (num / den)).length - 1) ≤ num / den ∧
      (num / den : ℚ) < 10 ^ (Nat.toDigits 10 (num / den)).length := by
  rcases TieRule.exists_fraction num hden with
    ⟨rest, hsplit, hnonneg, hlt, _, _⟩
  have hlow := pow_le_of_ne_zero (Nat.div_pos h hden).ne'
  have hhigh : num / den + 1 ≤ 10 ^ (Nat.toDigits 10 (num / den)).length :=
    lt_pow_length (num / den)
  rw [hsplit]
  generalize (Nat.toDigits 10 (num / den)).length = length at *
  generalize num / den = whole at *
  have hlow' : (10 : ℚ) ^ (length - 1) ≤ whole := by exact_mod_cast hlow
  have hhigh' : (whole : ℚ) + 1 ≤ 10 ^ length := by exact_mod_cast hhigh
  constructor <;> linarith

theorem leadingExponent_bounds {d : Decimal} (h : d.significand ≠ 0) :
    (10 : ℚ) ^ d.leadingExponent ≤ d.value ∧
    d.value < 10 ^ (d.leadingExponent + 1) := by
  have hpos : 0 < d.digits.length := Nat.length_toDigits_pos
  have hlow : d.leadingExponent = (d.digits.length - 1 : Nat) + d.exponent := by
    unfold leadingExponent
    omega
  have hhigh : d.leadingExponent + 1 =
      (d.digits.length : Nat) + d.exponent := by
    unfold leadingExponent
    omega
  have hpower := ten_zpow_pos d.exponent
  rw [hhigh, hlow, zpow_add₀ (by norm_num),
    zpow_add₀ (by norm_num), zpow_natCast, zpow_natCast, value]
  constructor
  · exact mul_le_mul_of_nonneg_right
      (by exact_mod_cast pow_le_of_ne_zero h) hpower.le
  · exact mul_lt_mul_of_pos_right
      (by exact_mod_cast lt_pow_length d.significand) hpower

end Decimal

theorem find?_of_three {α : Type} (p : α -> Bool) (x y z : α) :
    [x, y, z].find? p =
      if p x then
        some x
      else if p y then
        some y
      else if p z then
        some z
      else
        none := by
  rw [List.find?_cons, List.find?_cons, List.find?_singleton]
  cases p x <;> cases p y <;> rfl

namespace Magnitude

/-!
## Leading digits of magnitudes
-/

variable {tie : TieRule} {m : Magnitude} {exponent : Int} {t s : Nat}

theorem unitsPerOne_pos : 0 < unitsPerOne := by
  rw [unitsPerOne, Nat.shiftLeft_eq, Nat.one_mul]
  exact Nat.two_pow_pos _

theorem leadingExponent_bounds (h : m ≠ zero) :
    (10 : ℚ) ^ m.leadingExponent ≤ m.value ∧
    m.value < 10 ^ (m.leadingExponent + 1) := by
  have hone : unitsPerOne ≤ m.units * powerOfTen 324 :=
    le_trans (by decide +kernel) (Nat.le_mul_of_pos_left _ (units_pos h))
  have hscale : ((m.units * powerOfTen 324 : Nat) : ℚ) / unitsPerOne =
      m.value * 10 ^ 324 := by
    rw [Nat.cast_mul, Decimal.cast_powerOfTen, value, div_mul_eq_mul_div]
  have hbounds := Decimal.pow_length_bounds unitsPerOne_pos hone
  have hlength : m.leadingExponent =
      (Nat.toDigits 10 (m.units * powerOfTen 324 / unitsPerOne)).length - 325 :=
    rfl
  have hpos :=
    @Nat.length_toDigits_pos 10 (m.units * powerOfTen 324 / unitsPerOne)
  rw [hscale] at hbounds
  generalize (Nat.toDigits 10 (m.units * powerOfTen 324 / unitsPerOne)).length =
    length at *
  have hfirst : m.leadingExponent = ((length - 1 : Nat) : Int) - 324 := by omega
  have hnext : m.leadingExponent + 1 = (length : Int) - 324 := by omega
  have hten : (0 : ℚ) < 10 ^ 324 := by positivity
  have hscaled : forall power : Nat,
      (10 : ℚ) ^ ((power : Int) - 324) * 10 ^ 324 = 10 ^ power := by
    intro power
    rw [zpow_sub₀ (by norm_num), zpow_natCast, zpow_ofNat,
      div_mul_cancel₀ _ hten.ne']
  rw [hnext, hfirst, ← mul_le_mul_iff_of_pos_right hten,
    ← mul_lt_mul_iff_of_pos_right hten, hscaled, hscaled]
  exact hbounds

/-!
## Points next to a value
-/

def steps (m : Magnitude) (exponent : Int) : ℚ :=
  m.value / 10 ^ exponent

def floorOnGrid (m : Magnitude) (exponent : Int) : Nat :=
  m.units * powerOfTen
    (-exponent).toNat / (unitsPerOne * powerOfTen exponent.toNat)

def roundOnGrid (tie : TieRule) (m : Magnitude) (exponent : Int) : Nat :=
  tie.round (m.units * powerOfTen (-exponent).toNat)
    (unitsPerOne * powerOfTen exponent.toNat)

theorem step_pos (exponent : Int) :
    0 < unitsPerOne * powerOfTen exponent.toNat :=
  Nat.mul_pos unitsPerOne_pos (powerOfTen_pos _)

theorem quotient_onGrid (m : Magnitude) (exponent : Int) :
    ((m.units * powerOfTen (-exponent).toNat : Nat) : ℚ) /
      (unitsPerOne * powerOfTen exponent.toNat : Nat) = m.steps exponent := by
  rw [steps, value, Decimal.ten_zpow_eq, Nat.cast_mul, Nat.cast_mul,
    div_div_div_eq]

theorem floorOnGrid_le : (m.floorOnGrid exponent : ℚ) ≤ m.steps exponent := by
  rw [← quotient_onGrid]
  exact Nat.cast_div_le

theorem lt_floorOnGrid_add_one :
    m.steps exponent < m.floorOnGrid exponent + 1 := by
  rcases TieRule.exists_fraction (m.units * powerOfTen (-exponent).toNat)
    (step_pos exponent) with ⟨fraction, hsplit, _, hlt, _, _⟩
  rw [← quotient_onGrid, hsplit, floorOnGrid]
  linarith

theorem le_floorOnGrid (h : (t : ℚ) ≤ m.steps exponent) :
    t ≤ m.floorOnGrid exponent := by
  have hlt : (t : ℚ) < (m.floorOnGrid exponent + 1 : Nat) := by
    push_cast
    exact lt_of_le_of_lt h lt_floorOnGrid_add_one
  exact Nat.lt_succ_iff.mp (Nat.cast_lt.mp hlt)

theorem floorOnGrid_lt (h : m.steps exponent < t) :
    m.floorOnGrid exponent < t :=
  Nat.cast_lt.mp (lt_of_le_of_lt floorOnGrid_le h)

theorem roundOnGrid_eq_or (tie : TieRule) (m : Magnitude) (exponent : Int) :
    m.roundOnGrid tie exponent = m.floorOnGrid exponent ∨
      m.roundOnGrid tie exponent = m.floorOnGrid exponent + 1 := by
  unfold roundOnGrid floorOnGrid
  exact TieRule.round_eq_or tie _ _

theorem dist_roundOnGrid_le (tie : TieRule) (m : Magnitude) (exponent : Int) :
    |(m.roundOnGrid tie exponent : ℚ) - m.steps exponent| ≤ 1 / 2 := by
  rw [← quotient_onGrid]
  exact TieRule.dist_round_le tie _ (step_pos exponent)

theorem dist_roundOnGrid_le_dist (tie : TieRule) (m : Magnitude)
    (exponent : Int) (t : Nat) :
    |(m.roundOnGrid tie exponent : ℚ) - m.steps exponent| ≤
      |(t : ℚ) - m.steps exponent| := by
  have hhalf := dist_roundOnGrid_le tie m exponent
  by_cases heq : m.roundOnGrid tie exponent = t
  · rw [heq]
  · exact le_trans hhalf (half_le_dist hhalf heq)

theorem dist_value (m : Magnitude) (exponent : Int) (t : Nat) :
    |(Decimal.mk t exponent).value - m.value| = |(t : ℚ) - m.steps exponent| *
      10 ^ exponent := by
  have hpower := Decimal.ten_zpow_pos exponent
  have hsub : (Decimal.mk t exponent).value - m.value =
      ((t : ℚ) - m.steps exponent) * 10 ^ exponent := by
    rw [sub_mul, steps, div_mul_cancel₀ _ hpower.ne']
    rfl
  rw [hsub, abs_mul, abs_of_pos hpower]

/-!
## Points that are read as the magnitude
-/

theorem magnitude_of_le
    (h : (Decimal.mk t exponent).magnitude = m) (hts : t ≤ s)
    (hs : (s : ℚ) ≤ m.steps exponent) :
    (Decimal.mk s exponent).magnitude = m := by
  have hpower := Decimal.ten_zpow_pos exponent
  refine Decimal.magnitude_of_between_value h (Or.inl ⟨?_, ?_⟩)
  · exact mul_le_mul_of_nonneg_right (Nat.cast_le.mpr hts) hpower.le
  · exact (le_div_iff₀ hpower).mp hs

theorem magnitude_of_ge
    (h : (Decimal.mk t exponent).magnitude = m) (hst : s ≤ t)
    (hs : m.steps exponent ≤ s) : (Decimal.mk s exponent).magnitude = m := by
  have hpower := Decimal.ten_zpow_pos exponent
  refine Decimal.magnitude_of_between_value h (Or.inr ⟨?_, ?_⟩)
  · exact (div_le_iff₀ hpower).mp hs
  · exact mul_le_mul_of_nonneg_right (Nat.cast_le.mpr hst) hpower.le

theorem magnitude_floor_or_next (h : (Decimal.mk t exponent).magnitude = m) :
    (t ≤ m.floorOnGrid exponent ∧
        (Decimal.mk (m.floorOnGrid exponent) exponent).magnitude = m) ∨
      m.floorOnGrid exponent + 1 ≤ t ∧
        (Decimal.mk (m.floorOnGrid exponent + 1) exponent).magnitude = m := by
  rcases le_or_gt (t : ℚ) (m.steps exponent) with hle | hlt
  · have ht := le_floorOnGrid hle
    exact Or.inl ⟨ht, magnitude_of_le h ht floorOnGrid_le⟩
  · have ht := floorOnGrid_lt hlt
    refine Or.inr ⟨ht, magnitude_of_ge h ht ?_⟩
    push_cast
    exact lt_floorOnGrid_add_one.le

theorem onGrid?_eq (tie : TieRule) (m : Magnitude) (exponent : Int) :
    m.onGrid? tie exponent =
      if (Decimal.mk (m.roundOnGrid tie exponent) exponent).magnitude = m then
        some ⟨m.roundOnGrid tie exponent, exponent⟩
      else if (Decimal.mk (m.floorOnGrid exponent) exponent).magnitude = m then
        some ⟨m.floorOnGrid exponent, exponent⟩
      else if
          (Decimal.mk (m.floorOnGrid exponent + 1) exponent).magnitude = m then
        some ⟨m.floorOnGrid exponent + 1, exponent⟩
      else none := by
  rw [onGrid?, roundOnGrid, floorOnGrid]
  simp only [List.map_cons, List.map_nil, find?_of_three, decide_eq_true_eq]

/-- If no point is found, then none is read as the magnitude. -/
theorem not_magnitude_of_onGrid?_eq_none
    (h : m.onGrid? tie exponent = none) (t : Nat) :
    (Decimal.mk t exponent).magnitude ≠ m := by
  intro ht
  rw [onGrid?_eq] at h
  split at h
  · cases h
  · split at h
    · cases h
    · rename_i hfloor
      split at h
      · cases h
      · rename_i hnext
        rcases magnitude_floor_or_next ht with ⟨_, hread⟩ | ⟨_, hread⟩
        · exact hfloor hread
        · exact hnext hread

theorem exists_of_onGrid?_eq_some {d : Decimal}
    (h : m.onGrid? tie exponent = some d) :
    exists n, d = ⟨n, exponent⟩ ∧ (Decimal.mk n exponent).magnitude = m ∧
      (n = m.roundOnGrid tie exponent ∨
        n = m.floorOnGrid exponent ∧
          (Decimal.mk (m.floorOnGrid exponent + 1) exponent).magnitude ≠ m ∨
        n = m.floorOnGrid exponent + 1 ∧
          (Decimal.mk (m.floorOnGrid exponent) exponent).magnitude ≠ m) := by
  have hround := roundOnGrid_eq_or tie m exponent
  rw [onGrid?_eq] at h
  split at h
  · rename_i hread
    exact ⟨_, (Option.some.inj h).symm, hread, Or.inl rfl⟩
  · rename_i hnot
    split at h
    · rename_i hread
      refine ⟨_, (Option.some.inj h).symm, hread, Or.inr (Or.inl ⟨rfl, ?_⟩)⟩
      rcases hround with hfloor | hnext
      · rw [hfloor] at hnot
        exact absurd hread hnot
      · rwa [hnext] at hnot
    · rename_i hfloor
      split at h
      · rename_i hread
        exact ⟨_, (Option.some.inj h).symm, hread,
          Or.inr (Or.inr ⟨rfl, hfloor⟩)⟩
      · cases h

theorem dist_floorOnGrid_le (h : t ≤ m.floorOnGrid exponent) :
    |(m.floorOnGrid exponent : ℚ) - m.steps exponent| ≤
      |(t : ℚ) - m.steps exponent| := by
  have hfloor := @floorOnGrid_le m exponent
  have ht : (t : ℚ) ≤ m.floorOnGrid exponent := Nat.cast_le.mpr h
  rw [abs_of_nonpos (by linarith), abs_of_nonpos (by linarith)]
  linarith

theorem dist_next_le (h : m.floorOnGrid exponent + 1 ≤ t) :
    |((m.floorOnGrid exponent + 1 : Nat) : ℚ) - m.steps exponent| ≤
      |(t : ℚ) - m.steps exponent| := by
  have hnext := @lt_floorOnGrid_add_one m exponent
  have ht : ((m.floorOnGrid exponent + 1 : Nat) : ℚ) ≤ t := Nat.cast_le.mpr h
  push_cast at ht ⊢
  rw [abs_of_nonneg (by linarith), abs_of_nonneg (by linarith)]
  linarith

section Found

variable {n : Nat} (h : m.onGrid? tie exponent = some ⟨n, exponent⟩)
  (ht : (Decimal.mk t exponent).magnitude = m)

include h

theorem le_floorOnGrid_add_one_of_found : n ≤ m.floorOnGrid exponent + 1 := by
  have hround := roundOnGrid_eq_or tie m exponent
  rcases exists_of_onGrid?_eq_some h with ⟨_, hpoint, _, hcases⟩
  cases hpoint
  omega

include ht

/-- Of the points that are read as the magnitude none is nearer than the one
that is found. -/
theorem dist_le_dist_of_found :
    |(n : ℚ) - m.steps exponent| ≤ |(t : ℚ) - m.steps exponent| := by
  rcases exists_of_onGrid?_eq_some h with ⟨_, hpoint, _, hcases⟩
  cases hpoint
  rcases hcases with rfl | ⟨rfl, hnext⟩ | ⟨rfl, hfloor⟩
  · exact dist_roundOnGrid_le_dist tie m exponent t
  · rcases magnitude_floor_or_next ht with ⟨hle, _⟩ | ⟨_, hread⟩
    · exact dist_floorOnGrid_le hle
    · exact absurd hread hnext
  · rcases magnitude_floor_or_next ht with ⟨_, hread⟩ | ⟨hle, _⟩
    · exact absurd hread hfloor
    · exact dist_next_le hle

end Found

theorem le_of_found_up {n : Nat}
    (h : m.onGrid? .up exponent = some ⟨n, exponent⟩)
    (ht : (Decimal.mk t exponent).magnitude = m)
    (hdist : |(n : ℚ) - m.steps exponent| = |(t : ℚ) - m.steps exponent|) :
    t ≤ n := by
  apply Nat.le_of_not_lt
  intro hlt
  have hapart : (n : ℚ) + 1 ≤ t := by exact_mod_cast hlt
  have hcast : (n : ℚ) < t := Nat.cast_lt.mpr hlt
  have hmiddle := add_le_two_mul_of_dist_le hcast hdist.ge
  have hmiddle' := two_mul_le_add_of_dist_le hcast hdist.le
  have hfloor : n ≤ m.floorOnGrid exponent := le_floorOnGrid (by linarith)
  have hnext : m.floorOnGrid exponent < t := floorOnGrid_lt (by linarith)
  rcases exists_of_onGrid?_eq_some h with ⟨_, hpoint, _, hcases⟩
  cases hpoint
  rcases hcases with rfl | ⟨rfl, hnot⟩ | ⟨rfl, _⟩
  · have hbounds :=
      TieRule.round_up_bounds (m.units * powerOfTen (-exponent).toNat)
        (step_pos exponent)
    rw [quotient_onGrid] at hbounds
    have hdown : m.steps exponent - m.roundOnGrid .up exponent < 1 / 2 :=
      hbounds.left
    linarith
  · rcases magnitude_floor_or_next ht with ⟨hle, _⟩ | ⟨_, hread⟩
    · exact Nat.not_le.mpr hnext hle
    · exact hnot hread
  · exact Nat.not_succ_le_self _ hfloor

end Magnitude

end LineCalc
