import LineCalc.Proofs.Decimal.Positional

/-!
# Plain texts of numbers

A plain text is a numeral or one of three words, perhaps behind a minus sign.
The sign and the number can be told from it.
-/

namespace LineCalc

namespace Binary64

variable {negative other : Bool} {m n : Magnitude} {c : Char}

@[simp] theorem withSign_false (text : List Char) :
    withSign false text = text := rfl

@[simp] theorem withSign_true (text : List Char) :
    withSign true text = '-' :: text := rfl

theorem withSign_inj {text rest : List Char} (htext : text.head? ≠ some '-')
    (hrest : rest.head? ≠ some '-') :
    withSign negative text = withSign other rest <-> negative = other ∧
      text = rest := by
  cases negative <;> cases other
  · simp
  · refine iff_of_false ?_ (by simp)
    rintro rfl
    exact htext rfl
  · refine iff_of_false ?_ (by simp)
    rintro rfl
    exact hrest rfl
  · simp

theorem plainChars_signed (negative : Bool) (m : Magnitude) :
    (signed negative m).plainChars =
      withSign negative (signed false m).plainChars := by
  rw [plainChars, plainChars, withSign_false]

theorem plainChars_infinity (h : m = .infinity) :
    (signed false m).plainChars = ['i', 'n', 'f'] := by
  rw [plainChars, if_pos h, withSign_false]

theorem isNumeralChar_of_mem_plainChars (h : m ≠ .infinity)
    (hc : c ∈ (signed false m).plainChars) : isNumeralChar c = true := by
  rw [plainChars_of_ne_infinity h] at hc
  exact Decimal.isNumeralChar_of_mem_positional hc

theorem startsToken_of_mem_plainChars {x : Binary64} (hc : c ∈ x.plainChars) :
    StartsToken c := by
  cases x with
  | nan =>
      simp only [plainChars, List.mem_cons, List.not_mem_nil, or_false] at hc
      rcases hc with rfl | rfl | rfl <;> decide
  | signed negative m =>
      have hbody : forall d, d ∈ (signed false m).plainChars ->
          StartsToken d := by
        intro d hd
        by_cases hm : m = .infinity
        · rw [plainChars_infinity hm] at hd
          simp only [List.mem_cons, List.not_mem_nil, or_false] at hd
          rcases hd with rfl | rfl | rfl <;> decide
        · exact startsToken_of_isNumeralChar
            (isNumeralChar_of_mem_plainChars hm hd)
      rw [plainChars_signed] at hc
      cases negative with
      | false =>
          rw [withSign_false] at hc
          exact hbody c hc
      | true =>
          rw [withSign_true] at hc
          rcases List.mem_cons.mp hc with rfl | hc
          · decide
          · exact hbody c hc

theorem head?_plainChars (hc : (signed false m).plainChars.head? = some c) :
    c = 'i' ∨ isNumeralChar c = true := by
  by_cases hm : m = .infinity
  · rw [plainChars_infinity hm] at hc
    exact Or.inl (Option.some.inj hc).symm
  · exact Or.inr (isNumeralChar_of_mem_plainChars hm (List.mem_of_head? hc))

theorem head?_plainChars_ne_minus (m : Magnitude) :
    (signed false m).plainChars.head? ≠ some '-' := by
  intro hminus
  rcases head?_plainChars hminus with h | h <;> cases h

theorem plainChars_ne_infinity (hm : m = .infinity) (hn : n ≠ .infinity) :
    (signed false n).plainChars ≠ (signed false m).plainChars := by
  intro h
  have hmem : 'i' ∈ (signed false n).plainChars := by
    rw [h, plainChars_infinity hm]
    exact List.mem_cons_self
  cases isNumeralChar_of_mem_plainChars hn hmem

theorem eq_of_plainChars_eq
    (h : (signed false m).plainChars = (signed false n).plainChars) :
    m = n := by
  by_cases hm : m = .infinity <;> by_cases hn : n = .infinity
  · rw [hm, hn]
  · exact absurd h.symm (plainChars_ne_infinity hm hn)
  · exact absurd h (plainChars_ne_infinity hn hm)
  · have hread := congrArg ofNumeral h
    rw [ofNumeral_plainChars hm, ofNumeral_plainChars hn] at hread
    injection hread

theorem plainChars_ne_nan (negative : Bool) (m : Magnitude) :
    (signed negative m).plainChars ≠ nan.plainChars := by
  intro h
  rw [plainChars_signed] at h
  cases negative with
  | false =>
      rw [withSign_false] at h
      rcases head?_plainChars (congrArg List.head? h) with hn | hn <;> cases hn
  | true =>
      rw [withSign_true] at h
      cases congrArg List.head? h

/-- Numbers with the same plain text are the same. -/
theorem plainChars_inj {x y : Binary64} :
    x.plainChars = y.plainChars <-> x = y := by
  refine ⟨fun h => ?_, fun h => h ▸ rfl⟩
  cases x with
  | nan =>
      cases y with
      | nan => rfl
      | signed other n => exact absurd h.symm (plainChars_ne_nan other n)
  | signed negative m =>
      cases y with
      | nan => exact absurd h (plainChars_ne_nan negative m)
      | signed other n =>
          rw [plainChars_signed negative, plainChars_signed other,
            withSign_inj (head?_plainChars_ne_minus m)
              (head?_plainChars_ne_minus n)] at h
          rw [h.left, eq_of_plainChars_eq h.right]

@[simp] theorem plainText_inj {x y : Binary64} :
    x.plainText = y.plainText <-> x = y := by
  rw [plainText, plainText, String.ofList_inj, plainChars_inj]

end Binary64

end LineCalc
