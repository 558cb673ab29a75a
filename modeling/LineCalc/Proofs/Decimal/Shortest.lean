import LineCalc.Proofs.Decimal.Grid

/-!
# Shortest decimals

Whatever is read as a magnitude with so many digits, there is a point on the
grid of so many digits that is read as it and is no farther away.  So the first
grid on which a point is found has the fewest digits, and no other decimal with
as many digits is nearer than this point.
-/

namespace LineCalc

theorem exists_first_of_findSome?_range {α : Type} {f : Nat -> Option α}
    {bound : Nat} {x : α} (h : (List.range bound).findSome? f = some x) :
    exists i, f i = some x ∧ forall j, j < i -> f j = none := by
  rcases List.findSome?_eq_some_iff.mp h with
    ⟨front, i, back, hrange, hx, hfront⟩
  refine ⟨i, hx, fun j hj => hfront j ?_⟩
  have hi : i ∈ List.range bound := by
    rw [hrange]
    exact List.mem_append_right _ List.mem_cons_self
  have hmem : j ∈ List.range bound :=
    List.mem_range.mpr (hj.trans (List.mem_range.mp hi))
  have hsorted := @List.pairwise_lt_range bound
  rw [hrange] at hmem hsorted
  have hbehind :=
    (List.pairwise_cons.mp (List.pairwise_append.mp hsorted).2.1).left
  rcases List.mem_append.mp hmem with hmem | hmem
  · exact hmem
  · rcases List.mem_cons.mp hmem with rfl | hmem
    · exact absurd hj (Nat.lt_irrefl _)
    · exact absurd (hbehind j hmem) (Nat.lt_asymm hj)

namespace Decimal

/-!
## Trailing zeros
-/

variable {significand places : Nat} {exponent : Int}

@[simp] theorem value_normal (significand : Nat) (exponent : Int) :
    (normal significand exponent).value =
      (Decimal.mk significand exponent).value := by
  fun_induction normal significand exponent with
  | case1 exponent => simp [value]
  | case2 significand exponent _ hzero ih =>
      have hten : (significand : ℚ) = (significand / 10 : Nat) * 10 := by
        exact_mod_cast (Nat.div_mul_cancel (Nat.dvd_of_mod_eq_zero hzero)).symm
      rw [ih, value, value, hten, zpow_add_one₀ (by norm_num), mul_assoc,
        mul_comm (10 : ℚ)]
  | case3 => rfl

theorem length_digits_normal_le (h : significand < 10 ^ (places + 1)) :
    (normal significand exponent).digits.length ≤ places + 1 := by
  fun_induction normal significand exponent with
  | case1 => exact Nat.le_add_left 1 places
  | case2 significand exponent _ _ ih =>
      exact ih (Nat.lt_of_le_of_lt (Nat.div_le_self _ _) h)
  | case3 =>
      exact (Nat.length_toDigits_le_iff (by decide) places.succ_pos).mpr h

theorem length_digits_normal_le_of_le (h : significand ≤ 10 ^ (places + 1)) :
    (normal significand exponent).digits.length ≤ places + 1 := by
  rcases Nat.lt_or_eq_of_le h with hlt | rfl
  · exact length_digits_normal_le hlt
  · have hne : 10 ^ (places + 1) ≠ 0 := (Nat.pow_pos (by decide)).ne'
    have hzero : 10 ^ (places + 1) % 10 = 0 := by
      rw [Nat.pow_succ, Nat.mul_mod_left]
    rw [normal, if_neg hne, if_pos hzero, Nat.pow_succ,
      Nat.mul_div_cancel _ (by decide)]
    exact length_digits_normal_le (Nat.pow_lt_pow_succ (by decide))

theorem value_pow (places : Nat) (exponent : Int) :
    (Decimal.mk (10 ^ places) (exponent - places)).value = 10 ^ exponent := by
  rw [value, zpow_sub₀ (by norm_num), zpow_natCast]
  push_cast
  rw [mul_div_cancel₀ _ (by positivity)]

end Decimal

namespace Magnitude

variable {tie : TieRule} {m : Magnitude} {c d : Decimal} {places n : Nat}

/-!
## Decimals with as many digits
-/

theorem significand_ne_zero (hm : m ≠ zero) (hd : d.magnitude = m) :
    d.significand ≠ 0 := by
  intro h
  apply hm
  rw [← hd, Decimal.magnitude, h, Nat.zero_mul, Nat.zero_mul,
    nearest_zero (powerOfTen_pos _)]

/-- For a decimal that is read as a magnitude there is a point on the grid of as
many digits, which is this decimal or a nearer one: if the decimal leads with
another power of ten, then such a power lies between it and the value. -/
theorem exists_point (hm : m ≠ zero) (hc : c.magnitude = m)
    (hplaces : c.digits.length = places + 1) :
    exists t, (Decimal.mk t (m.leadingExponent - places)).magnitude = m ∧
      ((Decimal.mk t (m.leadingExponent - places)).value = c.value ∨
        |(Decimal.mk t (m.leadingExponent - places)).value - m.value| <
          |c.value - m.value|) := by
  rcases leadingExponent_bounds hm with ⟨hlow, hhigh⟩
  rcases Decimal.leadingExponent_bounds (significand_ne_zero hm hc) with
    ⟨hclow, hchigh⟩
  have hten : (1 : ℚ) ≤ 10 := by norm_num
  rcases Int.lt_trichotomy c.leadingExponent m.leadingExponent with
    hless | heq | hmore
  · have hvalue := Decimal.value_pow places m.leadingExponent
    have hpower := zpow_le_zpow_right₀ hten (Int.add_one_le_of_lt hless)
    refine ⟨10 ^ places, ?_, Or.inr ?_⟩
    · refine Decimal.magnitude_of_between_value hc (Or.inl ⟨?_, ?_⟩) <;>
        rw [hvalue]
      · exact hchigh.le.trans hpower
      · exact hlow
    · rw [hvalue, abs_of_nonpos (by linarith), abs_of_nonpos (by linarith)]
      linarith
  · have hexponent : m.leadingExponent - places = c.exponent := by
      rw [← heq, Decimal.leadingExponent, hplaces]
      push_cast
      omega
    refine ⟨c.significand, ?_, Or.inl ?_⟩ <;> rw [hexponent]
    exact hc
  · have hvalue := Decimal.value_pow (places + 1) (m.leadingExponent + 1)
    have hexponent : m.leadingExponent + 1 - (places + 1 : Nat) =
        m.leadingExponent - places := by
      push_cast
      omega
    have hpower := zpow_le_zpow_right₀ hten (Int.add_one_le_of_lt hmore)
    rw [hexponent] at hvalue
    refine ⟨10 ^ (places + 1), ?_, ?_⟩
    · refine Decimal.magnitude_of_between_value hc (Or.inr ⟨?_, ?_⟩) <;>
        rw [hvalue]
      · exact hhigh.le
      · exact hpower.trans hclow
    · rw [hvalue]
      rcases (hpower.trans hclow).eq_or_lt with heq | hlt
      · exact Or.inl heq
      · right
        rw [abs_of_nonneg (by linarith), abs_of_nonneg (by linarith)]
        linarith

/-!
## The first grid with a point
-/

theorem onGrid?_sixteen_ne_none (hm : m ≠ zero) :
    m.onGrid? tie (m.leadingExponent - 16) ≠ none := by
  intro hnone
  apply not_magnitude_of_onGrid?_eq_none hnone
    (m.roundOnGrid tie (m.leadingExponent - 16))
  apply Decimal.magnitude_of_close
  have hhalf := dist_roundOnGrid_le tie m (m.leadingExponent - 16)
  have hlow := (leadingExponent_bounds hm).left
  have hpower := Decimal.ten_zpow_pos m.leadingExponent
  rw [dist_value, zpow_sub₀ (by norm_num), zpow_ofNat]
  calc
    (2 * 10 ^ 16 * (|(m.roundOnGrid tie (m.leadingExponent - 16) : ℚ) -
        m.steps (m.leadingExponent - 16)| *
          (10 ^ m.leadingExponent / 10 ^ 16)) : ℚ) =
      2 * |(m.roundOnGrid tie (m.leadingExponent - 16) : ℚ) -
        m.steps (m.leadingExponent - 16)| * 10 ^ m.leadingExponent := by ring
    _ ≤ 1 * 10 ^ m.leadingExponent :=
      mul_le_mul_of_nonneg_right (by linarith) hpower.le
    _ ≤ m.value := by rwa [one_mul]

/-- The grid on which a point is found, while none is found with fewer
digits. -/
structure FoundFirst (tie : TieRule) (m : Magnitude)
    (places n : Nat) : Prop where
  found : m.onGrid? tie (m.leadingExponent - places) =
    some ⟨n, m.leadingExponent - places⟩
  fewer : forall before, before < places ->
    m.onGrid? tie (m.leadingExponent - before) = none
  shortest : m.shortest tie = .normal n (m.leadingExponent - places)

theorem exists_foundFirst (tie : TieRule) (hm : m ≠ zero) :
    exists places n, FoundFirst tie m places n := by
  cases htried : (List.range 17).findSome? fun (places : Nat) =>
      m.onGrid? tie (m.leadingExponent - places) with
  | none =>
      have hnone := List.findSome?_eq_none_iff.mp htried 16 (by decide)
      exact absurd hnone (onGrid?_sixteen_ne_none hm)
  | some d =>
      rcases exists_first_of_findSome?_range htried with ⟨places, hd, hbefore⟩
      rcases exists_of_onGrid?_eq_some hd with ⟨n, rfl, _, _⟩
      refine ⟨places, n, hd, hbefore, ?_⟩
      rw [shortest, htried]
      rfl

namespace FoundFirst

variable (h : FoundFirst tie m places n) (hm : m ≠ zero)

include h

theorem value_shortest :
    (m.shortest tie).value =
      (Decimal.mk n (m.leadingExponent - places)).value := by
  rw [h.shortest, Decimal.value_normal]

include hm

theorem lt_length_digits (hc : c.magnitude = m) : places < c.digits.length := by
  have hpos : 0 < c.digits.length := Nat.length_toDigits_pos
  apply Nat.lt_of_not_le
  intro hle
  have hplaces : c.digits.length = (c.digits.length - 1) + 1 := by omega
  rcases exists_point hm hc hplaces with ⟨t, ht, _⟩
  exact not_magnitude_of_onGrid?_eq_none (h.fewer _ (by omega)) t ht

theorem length_digits_shortest :
    (m.shortest tie).digits.length = places + 1 := by
  apply Nat.le_antisymm
  · have hn := le_floorOnGrid_add_one_of_found h.found
    have hsteps : m.steps (m.leadingExponent - places) < 10 ^ (places + 1) := by
      have hhigh := (leadingExponent_bounds hm).right
      have hexponent : m.leadingExponent + 1 =
          (places + 1 : Nat) + (m.leadingExponent - places) := by
        push_cast
        omega
      rw [steps, div_lt_iff₀ (Decimal.ten_zpow_pos _)]
      rwa [hexponent, zpow_add₀ (by norm_num), zpow_natCast] at hhigh
    have hfloor : m.floorOnGrid (m.leadingExponent - places) <
        10 ^ (places + 1) :=
      floorOnGrid_lt (by exact_mod_cast hsteps)
    rw [h.shortest]
    exact Decimal.length_digits_normal_le_of_le (by omega)
  · exact h.lt_length_digits hm (magnitude_shortest tie m)

theorem dist_le (hc : c.magnitude = m)
    (hlength : c.digits.length = (m.shortest tie).digits.length) :
    |(m.shortest tie).value - m.value| ≤ |c.value - m.value| := by
  rw [h.length_digits_shortest hm] at hlength
  rcases exists_point hm hc hlength with ⟨t, ht, hpoint⟩
  have hnear : |(m.shortest tie).value - m.value| ≤
      |(Decimal.mk t (m.leadingExponent - places)).value - m.value| := by
    rw [h.value_shortest, dist_value, dist_value]
    exact mul_le_mul_of_nonneg_right (dist_le_dist_of_found h.found ht)
      (Decimal.ten_zpow_pos _).le
  rcases hpoint with hvalue | hdist
  · rwa [hvalue] at hnear
  · exact hnear.trans hdist.le

end FoundFirst

theorem FoundFirst.le_value (h : FoundFirst .up m places n) (hm : m ≠ zero)
    (hc : c.magnitude = m)
    (hlength : c.digits.length = (m.shortest .up).digits.length)
    (hdist : |(m.shortest .up).value - m.value| = |c.value - m.value|) :
    c.value ≤ (m.shortest .up).value := by
  have hpower := Decimal.ten_zpow_pos (m.leadingExponent - places)
  rw [h.length_digits_shortest hm] at hlength
  rcases exists_point hm hc hlength with ⟨t, ht, hvalue | hless⟩
  · rw [← hvalue, h.value_shortest, dist_value, dist_value,
      mul_left_inj' hpower.ne'] at hdist
    rw [← hvalue, h.value_shortest]
    exact mul_le_mul_of_nonneg_right
      (Nat.cast_le.mpr (le_of_found_up h.found ht hdist)) hpower.le
  · have hnear :=
      mul_le_mul_of_nonneg_right (dist_le_dist_of_found h.found ht) hpower.le
    rw [← dist_value, ← dist_value, ← h.value_shortest] at hnear
    rw [hdist] at hnear
    exact absurd hless (not_lt.mpr hnear)

/-- The word of a finite magnitude is written with its shortest decimal. -/
theorem isShortest_shortest (hm : m ≠ zero) (hfinite : m ≠ infinity) :
    (m.shortest .up).IsShortest (Binary64.signed false m).toBits := by
  rcases exists_foundFirst .up hm with ⟨places, n, h⟩
  have hvalue : Word.value (Binary64.signed false m).toBits = m.value :=
    Word.value_toBits hfinite
  have hread := magnitude_shortest .up m
  constructor
  case rounds => exact Decimal.rounds_iff.mpr hread
  case fewest =>
    intro other hother
    rw [h.length_digits_shortest hm]
    exact h.lt_length_digits hm (Decimal.rounds_iff.mp hother)
  case nearest =>
    intro other hother hlength
    rw [hvalue]
    exact h.dist_le hm (Decimal.rounds_iff.mp hother) hlength
  case larger =>
    intro other hother hlength hdist
    rw [hvalue] at hdist
    exact h.le_value hm (Decimal.rounds_iff.mp hother) hlength hdist

end Magnitude

namespace Decimal

variable {a b : Decimal} {word : UInt64}

theorem leadingExponent_le_of_value_le (ha : a.significand ≠ 0)
    (hb : b.significand ≠ 0) (h : a.value ≤ b.value) :
    a.leadingExponent ≤ b.leadingExponent := by
  have hlow := (leadingExponent_bounds ha).left
  have hhigh := (leadingExponent_bounds hb).right
  have hlt :=
    (zpow_lt_zpow_iff_right₀ (by norm_num)).mp ((hlow.trans h).trans_lt hhigh)
  omega

theorem eq_of_value_eq (ha : a.significand ≠ 0) (hb : b.significand ≠ 0)
    (hlength : a.digits.length = b.digits.length)
    (h : a.value = b.value) : a = b := by
  have hleading := Int.le_antisymm (leadingExponent_le_of_value_le ha hb h.le)
    (leadingExponent_le_of_value_le hb ha h.ge)
  have hexponent : a.exponent = b.exponent := by
    unfold leadingExponent at hleading
    omega
  rw [value, value, hexponent, mul_left_inj' (ten_zpow_pos _).ne',
    Nat.cast_inj] at h
  cases a
  cases b
  cases h
  cases hexponent
  rfl

theorem IsShortest.unique (ha : a.IsShortest word) (hb : b.IsShortest word)
    (hne : a.significand ≠ 0) (hne' : b.significand ≠ 0) : a = b := by
  have hlength :=
    Nat.le_antisymm (ha.fewest b hb.rounds) (hb.fewest a ha.rounds)
  have hdist := le_antisymm (ha.nearest b hb.rounds hlength.symm)
    (hb.nearest a ha.rounds hlength)
  apply eq_of_value_eq hne hne' hlength
  exact le_antisymm (hb.larger a ha.rounds hlength hdist.symm)
    (ha.larger b hb.rounds hlength.symm hdist)

end Decimal

end LineCalc
