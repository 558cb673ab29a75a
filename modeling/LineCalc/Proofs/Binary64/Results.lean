import LineCalc.Proofs.Binary64.Text
import LineCalc.Proofs.Binary64.Words
import LineCalc.Proofs.Decimal.Notation
import LineCalc.Proofs.Decimal.Shortest

/-!
# Texts of results

Whether a result is written with an exponent is decided by comparing magnitudes,
one of them nearest to a power of ten that is none itself.  As the shortest
decimals of both magnitudes are these powers, it is the leading exponent of the
shortest decimal that decides.  The text has the value of this decimal, so the
number can be read from it.
-/

namespace LineCalc

namespace Decimal

variable {d : Decimal} {exponent : Int}

theorem le_leadingExponent_iff (h : d.significand ≠ 0) :
    exponent ≤ d.leadingExponent <-> (10 : ℚ) ^ exponent ≤ d.value := by
  rcases leadingExponent_bounds h with ⟨hlow, hhigh⟩
  have hten : (1 : ℚ) < 10 := by norm_num
  constructor
  · intro hle
    exact ((zpow_le_zpow_iff_right₀ hten).mpr hle).trans hlow
  · intro hle
    exact Int.lt_add_one_iff.mp
      ((zpow_lt_zpow_iff_right₀ hten).mp (hle.trans_lt hhigh))

theorem value_one (exponent : Int) :
    (Decimal.mk 1 exponent).value = 10 ^ exponent := by
  rw [value, Nat.cast_one, one_mul]

end Decimal

namespace Binary64

variable {m n : Magnitude} {negative other : Bool}

/-!
## Where an exponent is needed
-/

/-- Magnitudes are compared with that of a power of ten as their shortest
decimals are with the power itself, if this is the shortest decimal of its
magnitude: one that lies below it is then read as a lower magnitude. -/
theorem rank_le_rank_iff {power : Decimal}
    (h : power.magnitude.shortest .up = power) :
    power.magnitude.rank ≤ m.rank <-> power.value ≤ (m.shortest .up).value := by
  have hread := m.magnitude_shortest .up
  constructor
  · intro hle
    apply le_of_not_gt
    intro hlt
    have hge := Decimal.rank_magnitude_le hlt.le
    rw [hread] at hge
    have heq : power.magnitude = m := Magnitude.ext (Nat.le_antisymm hle hge)
    rw [← heq, h] at hlt
    exact lt_irrefl _ hlt
  · intro hle
    have hrank := Decimal.rank_magnitude_le hle
    rwa [hread] at hrank

theorem shortest_upper :
    (Decimal.mk 1 21).magnitude.shortest .up = ⟨1, 21⟩ := by
  decide +kernel

theorem shortest_lower :
    (Decimal.mk 1 (-6)).magnitude.shortest .up = ⟨1, -6⟩ := by
  decide +kernel

theorem needsExponent_iff (hm : m ≠ .zero) :
    needsExponent m = true <->
      ¬ (-6 ≤ (m.shortest .up).leadingExponent ∧
        (m.shortest .up).leadingExponent ≤ 20) := by
  have hne := Magnitude.significand_ne_zero hm (m.magnitude_shortest .up)
  have hupper := @rank_le_rank_iff m _ shortest_upper
  have hlower := @rank_le_rank_iff m _ shortest_lower
  rw [Decimal.value_one, ← Decimal.le_leadingExponent_iff hne] at hupper hlower
  rw [needsExponent, Bool.or_eq_true, decide_eq_true_iff,
    decide_eq_true_iff, hupper, ← Nat.not_le, hlower]
  omega

/-!
## Texts without a sign
-/

def resultBody (m : Magnitude) : List Char :=
  if m = .infinity then ['I', 'n', 'f', 'i', 'n', 'i', 't', 'y']
  else if needsExponent m then (m.shortest .up).scientific
  else (m.shortest .up).positional

theorem resultChars_of_ne_zero (hm : m ≠ .zero) :
    (signed negative m).resultChars = withSign negative (resultBody m) :=
  if_neg hm

theorem resultChars_of_eq_zero (hm : m = .zero) :
    (signed negative m).resultChars = ['0'] :=
  if_pos hm

theorem resultBody_of_eq_infinity (hm : m = .infinity) :
    resultBody m = ['I', 'n', 'f', 'i', 'n', 'i', 't', 'y'] := by
  rw [resultBody, if_pos hm]

theorem resultBody_cases (hfinite : m ≠ .infinity) :
    needsExponent m = true ∧ resultBody m = (m.shortest .up).scientific ∨
      ¬ needsExponent m = true ∧
      resultBody m = (m.shortest .up).positional := by
  by_cases hexponent : needsExponent m = true
  · exact Or.inl ⟨hexponent,
      by rw [resultBody, if_neg hfinite, if_pos hexponent]⟩
  · exact Or.inr ⟨hexponent,
      by rw [resultBody, if_neg hfinite, if_neg hexponent]⟩

theorem scaledValue_resultBody (hfinite : m ≠ .infinity) :
    Numeral.scaledValue (resultBody m) = (m.shortest .up).value := by
  rcases resultBody_cases hfinite with ⟨_, htext⟩ | ⟨_, htext⟩
  · rw [htext, Numeral.scaledValue_scientific]
  · rw [htext, Numeral.scaledValue_positional]

/-!
## Telling results apart
-/

theorem head?_resultBody {c : Char} (hc : (resultBody m).head? = some c) :
    m = .infinity ∧ c = 'I' ∨ m ≠ .infinity ∧ c.isDigit = true := by
  by_cases hm : m = .infinity
  · rw [resultBody_of_eq_infinity hm] at hc
    exact Or.inl ⟨hm, (Option.some.inj hc).symm⟩
  · refine Or.inr ⟨hm, ?_⟩
    have hdigits : forall e, e ∈ (m.shortest .up).digits -> e.isDigit = true :=
      fun _ => Decimal.isDigit_of_mem_digits
    rcases resultBody_cases hm with ⟨_, htext⟩ | ⟨_, htext⟩
    · rw [htext] at hc
      exact Decimal.isDigit_head?_of_scientific
        (Decimal.scientific_scientific _) hdigits hc
    · rw [htext] at hc
      exact Decimal.isDigit_head?_of_plain (Decimal.plain_positional _)
        Nat.toDigits_ne_nil hdigits hc

theorem head?_resultBody_ne_minus (m : Magnitude) :
    (resultBody m).head? ≠ some '-' := by
  intro hminus
  rcases head?_resultBody hminus with ⟨_, h⟩ | ⟨_, h⟩ <;> cases h

theorem head?_resultChars_ne_n (negative : Bool) (m : Magnitude) :
    (signed negative m).resultChars.head? ≠ some 'N' := by
  intro hn
  by_cases hm : m = .zero
  · rw [resultChars_of_eq_zero hm] at hn
    cases hn
  · rw [resultChars_of_ne_zero hm] at hn
    cases negative with
    | false =>
        rw [withSign_false] at hn
        rcases head?_resultBody hn with ⟨_, h⟩ | ⟨_, h⟩ <;> cases h
    | true =>
        rw [withSign_true] at hn
        cases hn

theorem scaledValue_zero : Numeral.scaledValue ['0'] = 0 := by
  have hzero := Numeral.scaledValue_positional ⟨0, 0⟩
  rw [Decimal.value, Nat.cast_zero, zero_mul] at hzero
  exact hzero

theorem value_shortest_pos (hm : m ≠ .zero) : 0 < (m.shortest .up).value := by
  have hne := Magnitude.significand_ne_zero hm (m.magnitude_shortest .up)
  exact mul_pos (Nat.cast_pos.mpr (Nat.pos_of_ne_zero hne))
    (Decimal.ten_zpow_pos _)

theorem withSign_resultBody_ne_zero (hm : m ≠ .zero) :
    withSign negative (resultBody m) ≠ ['0'] := by
  intro h
  cases negative with
  | false =>
      rw [withSign_false] at h
      have hhead : (resultBody m).head? = some '0' := by rw [h]; rfl
      rcases head?_resultBody hhead with ⟨_, hcontra⟩ | ⟨hfinite, _⟩
      · cases hcontra
      · have hvalue := scaledValue_resultBody hfinite
        rw [h, scaledValue_zero] at hvalue
        exact (value_shortest_pos hm).ne hvalue
  | true =>
      rw [withSign_true] at h
      cases h

theorem resultBody_ne_infinity (hm : m = .infinity) (hn : n ≠ .infinity) :
    resultBody n ≠ resultBody m := by
  intro h
  have hhead : (resultBody n).head? = some 'I' := by
    rw [h, resultBody_of_eq_infinity hm]
    rfl
  rcases head?_resultBody hhead with ⟨hinfinite, _⟩ | ⟨_, hdigit⟩
  · exact hn hinfinite
  · cases hdigit

theorem eq_of_resultBody_eq (h : resultBody m = resultBody n) : m = n := by
  by_cases hm : m = .infinity <;> by_cases hn : n = .infinity
  · rw [hm, hn]
  · exact absurd h.symm (resultBody_ne_infinity hm hn)
  · exact absurd h (resultBody_ne_infinity hn hm)
  · have hvalue := congrArg Numeral.scaledValue h
    rw [scaledValue_resultBody hm, scaledValue_resultBody hn] at hvalue
    rw [← m.magnitude_shortest .up, Decimal.magnitude_eq_of_value_eq hvalue,
      n.magnitude_shortest]

theorem eq_or_zero_of_resultChars_eq {x y : Binary64}
    (h : x.resultChars = y.resultChars) :
    x = y ∨ exists negative other, x = signed negative .zero ∧
      y = signed other .zero := by
  cases x with
  | nan =>
      cases y with
      | nan => exact Or.inl rfl
      | signed other n =>
          exact absurd (congrArg List.head? h).symm
            (head?_resultChars_ne_n other n)
  | signed negative m =>
      cases y with
      | nan =>
          exact absurd (congrArg List.head? h)
            (head?_resultChars_ne_n negative m)
      | signed other n =>
          by_cases hm : m = .zero <;> by_cases hn : n = .zero
          · exact Or.inr ⟨negative, other, by rw [hm], by rw [hn]⟩
          · rw [resultChars_of_eq_zero hm, resultChars_of_ne_zero hn] at h
            exact absurd h.symm (withSign_resultBody_ne_zero hn)
          · rw [resultChars_of_ne_zero hm, resultChars_of_eq_zero hn] at h
            exact absurd h (withSign_resultBody_ne_zero hm)
          · rw [resultChars_of_ne_zero hm, resultChars_of_ne_zero hn,
              withSign_inj (head?_resultBody_ne_minus m)
                (head?_resultBody_ne_minus n)] at h
            rw [h.left, eq_of_resultBody_eq h.right]
            exact Or.inl rfl

/-!
## Words and their texts
-/

section Words

variable {word : UInt64}

theorem resultChars_ofBits (h : Word.IsFinite word)
    (hne : Word.value word ≠ 0) :
    (ofBits word).resultChars =
      withSign (decide (Word.value word < 0))
        (resultBody (Word.magnitude word)) := by
  rw [Word.ofBits_of_not_isNaN (Word.not_isNaN_of_isFinite h),
    resultChars_of_ne_zero (Word.magnitude_ne_zero h hne),
    decide_eq_decide.mpr (Word.signBit_le_iff h hne)]

theorem isShortest_iff (h : Word.IsFinite word) (hne : Word.value word ≠ 0)
    (d : Decimal) :
    d.IsShortest (Word.unsigned word) <->
      d = (Word.magnitude word).shortest .up := by
  have hm := Word.magnitude_ne_zero h hne
  have hshortest :=
    Magnitude.isShortest_shortest hm (Word.magnitude_ne_infinity h)
  rw [← Word.unsigned_eq (Word.not_isNaN_of_isFinite h)] at hshortest
  refine ⟨fun hd => ?_, fun heq => heq ▸ hshortest⟩
  have hread := hd.rounds
  rw [Word.unsigned_eq (Word.not_isNaN_of_isFinite h),
    Decimal.rounds_iff] at hread
  exact hd.unique hshortest (Magnitude.significand_ne_zero hm hread)
    (Magnitude.significand_ne_zero hm (Magnitude.magnitude_shortest .up _))

theorem textValue_withSign (hm : m ≠ .infinity) :
    Numeral.textValue (withSign negative (resultBody m)) =
      if negative then -(m.shortest .up).value else (m.shortest .up).value := by
  cases negative with
  | false =>
      rw [withSign_false,
        Numeral.textValue_of_head? (head?_resultBody_ne_minus m),
        scaledValue_resultBody hm]
      rfl
  | true =>
      rw [withSign_true, Numeral.textValue, scaledValue_resultBody hm]
      rfl

theorem roundsSigned_textValue (h : Word.IsFinite word)
    (hne : Word.value word ≠ 0) :
    Word.RoundsSigned (Numeral.textValue (ofBits word).resultChars) word := by
  have hpos := value_shortest_pos (Word.magnitude_ne_zero h hne)
  have hrounds := ((isShortest_iff h hne _).mpr rfl).rounds
  rw [resultChars_ofBits h hne,
    textValue_withSign (Word.magnitude_ne_infinity h)]
  by_cases hnegative : Word.value word < 0
  · rw [decide_eq_true hnegative, if_pos rfl]
    refine ⟨?_, iff_of_true (neg_lt_zero.mpr hpos) hnegative⟩
    rwa [abs_neg, abs_of_pos hpos]
  · rw [decide_eq_false hnegative, if_neg Bool.false_ne_true]
    refine ⟨?_, iff_of_false (not_lt.mpr hpos.le) hnegative⟩
    rwa [abs_of_pos hpos]

theorem writtenAs_resultChars (h : Word.IsFinite word)
    (hne : Word.value word ≠ 0) :
    Word.WrittenAs word (ofBits word).resultChars
      ((Word.magnitude word).shortest .up)
      (resultBody (Word.magnitude word)) := by
  have hexponent := needsExponent_iff (Word.magnitude_ne_zero h hne)
  have hbody := resultBody_cases (Word.magnitude_ne_infinity h)
  constructor
  case shortest => exact isShortest_iff h hne
  case sign =>
    rw [resultChars_ofBits h hne, withSign]
    exact if_congr (decide_eq_true_iff) rfl rfl
  case plain =>
    rcases hbody with ⟨hneeds, htext⟩ | ⟨hneeds, htext⟩
    · rw [htext]
      exact iff_of_false (Decimal.not_plain_scientific _) (hexponent.mp hneeds)
    · rw [htext]
      exact iff_of_true (Decimal.plain_positional _)
        (not_not.mp (mt hexponent.mpr hneeds))
  case scientific =>
    rcases hbody with ⟨hneeds, htext⟩ | ⟨hneeds, htext⟩
    · rw [htext]
      exact iff_of_true (Decimal.scientific_scientific _) (hexponent.mp hneeds)
    · rw [htext]
      exact iff_of_false (Decimal.not_scientific_positional _)
        (mt hexponent.mpr hneeds)
  case rounds => exact roundsSigned_textValue h hne

theorem eq_or_of_resultText_eq {other : UInt64}
    (h : (ofBits word).resultText = (ofBits other).resultText) :
    word = other ∨ Word.IsNaN word ∧ Word.IsNaN other ∨ Word.IsZero word ∧
    Word.IsZero other := by
  have hcases := eq_or_zero_of_resultChars_eq (String.ofList_inj.mp h)
  by_cases hnan : Word.IsNaN word <;> by_cases hnan' : Word.IsNaN other
  · exact Or.inr (Or.inl ⟨hnan, hnan'⟩)
  · rw [Word.ofBits_of_isNaN hnan, Word.ofBits_of_not_isNaN hnan'] at hcases
    rcases hcases with heq | ⟨_, _, heq, _⟩ <;> cases heq
  · rw [Word.ofBits_of_not_isNaN hnan, Word.ofBits_of_isNaN hnan'] at hcases
    rcases hcases with heq | ⟨_, _, _, heq⟩ <;> cases heq
  · rcases hcases with heq | ⟨_, _, hzero, hzero'⟩
    · exact Or.inl (Word.eq_of_ofBits_eq hnan hnan' heq)
    · rw [Word.ofBits_of_not_isNaN hnan, signed.injEq] at hzero
      rw [Word.ofBits_of_not_isNaN hnan', signed.injEq] at hzero'
      exact Or.inr (Or.inr ⟨Word.isZero_of_magnitude hnan hzero.right,
        Word.isZero_of_magnitude hnan' hzero'.right⟩)

/-- Every number that is finite and not zero is written with its shortest
decimal, and the text of a number tells it from every other one. -/
theorem resultText_tells_number :
    (forall word, Word.IsFinite word -> Word.value word ≠ 0 ->
      exists d body, Word.WrittenAs word (ofBits word).resultText.toList d body) ∧
    forall word other, (ofBits word).resultText = (ofBits other).resultText ->
      word = other ∨ Word.IsNaN word ∧ Word.IsNaN other ∨
        Word.IsZero word ∧ Word.IsZero other := by
  refine ⟨fun word h hne => ?_, fun word other => eq_or_of_resultText_eq⟩
  rw [resultText, String.toList_ofList]
  exact ⟨_, _, writtenAs_resultChars h hne⟩

/-- Minus a quarter of a millionth has an exponent, and the text determines the
word. -/
theorem resultText_of_quarter_millionth :
    (ofBits 0xbe90c6f7a0b5ed8d).resultText = "-2.5e-7" ∧
      (exists d body, Word.WrittenAs 0xbe90c6f7a0b5ed8d "-2.5e-7".toList d body) ∧
      forall word, (ofBits word).resultText = "-2.5e-7" ->
        word = 0xbe90c6f7a0b5ed8d := by
  have htext : (ofBits 0xbe90c6f7a0b5ed8d).resultText = "-2.5e-7" := by
    decide +kernel
  have hexponent : Word.exponent 0xbe90c6f7a0b5ed8d ≠ 2047 := by decide +kernel
  have hvalue : Word.value 0xbe90c6f7a0b5ed8d ≠ 0 := by decide +kernel
  rcases resultText_tells_number with ⟨hwritten, htells⟩
  have hone := hwritten _ hexponent hvalue
  rw [htext] at hone
  refine ⟨htext, hone, fun word hword => ?_⟩
  rcases htells word 0xbe90c6f7a0b5ed8d (hword.trans htext.symm) with
    heq | ⟨_, hnan⟩ | ⟨_, hzero⟩
  · exact heq
  · exact absurd hnan.left hexponent
  · exact absurd hzero.right hvalue

end Words

end Binary64

end LineCalc
