import LineCalc.Text.Units

/-!
# Decoding UTF-16 code units

The code units of a text are decoded to the text.
-/

namespace LineCalc

theorem toNat_lt_surrogates_or (c : Char) :
    c.toNat < 0xd800 ∨ 0xdfff < c.toNat ∧ c.toNat < 0x110000 :=
  c.valid

theorem decode16?_basic {unit : Nat} {rest : List Nat}
    (hunit : unit < 0xd800 ∨ 0xdfff < unit) :
    decode16? (unit :: rest) = (decode16? rest).map (Char.ofNat unit :: ·) := by
  have hhigh : isHighSurrogate unit = false := by
    unfold isHighSurrogate
    grind
  have hlow : isLowSurrogate unit = false := by
    unfold isLowSurrogate
    grind
  rw [decode16?.eq_def]
  simp only [hhigh, hlow, Bool.false_eq_true, if_false]

theorem decode16?_pair {high low : Nat} {rest : List Nat}
    (hhigh : isHighSurrogate high = true) (hlow : isLowSurrogate low = true) :
    decode16? (high :: low :: rest) = (decode16? rest).map
      (Char.ofNat (0x10000 + (high - 0xd800) * 0x400 + (low - 0xdc00)) :: ·) := by
  rw [decode16?, if_pos hhigh]
  exact if_pos hlow

theorem decode16?_units16_append (c : Char) (rest : List Nat) :
    decode16? (units16 c ++ rest) = (decode16? rest).map (c :: ·) := by
  have hvalid := toNat_lt_surrogates_or c
  by_cases hbasic : c.toNat < 0x10000
  · rw [units16, if_pos hbasic, List.singleton_append,
      decode16?_basic (by omega), Char.ofNat_toNat]
  · have hhigh : isHighSurrogate (0xd800 + (c.toNat - 0x10000) / 0x400) =
        true := by
      simp only [isHighSurrogate, Bool.and_eq_true, decide_eq_true_eq]
      omega
    have hlow : isLowSurrogate (0xdc00 + (c.toNat - 0x10000) % 0x400) =
        true := by
      simp only [isLowSurrogate, Bool.and_eq_true, decide_eq_true_eq]
      omega
    have hcode : 0x10000 +
        (0xd800 + (c.toNat - 0x10000) / 0x400 - 0xd800) * 0x400 +
        (0xdc00 + (c.toNat - 0x10000) % 0x400 - 0xdc00) = c.toNat := by
      omega
    rw [units16, if_neg hbasic, List.cons_append, List.singleton_append,
      decode16?_pair hhigh hlow, hcode, Char.ofNat_toNat]

theorem decode16?_flatMap_units16 (text : List Char) :
    decode16? (text.flatMap units16) = some text := by
  induction text with
  | nil => rfl
  | cons c text ih =>
      rw [List.flatMap_cons, decode16?_units16_append, ih]
      rfl

end LineCalc
