import LineCalc.Text.Units

/-!
# JSON tokens

The tokens of strict JSON.  Blanks are the four that JSON allows, control
characters in strings have to be escaped, and a number has no leading zeros and
at least one digit on either side of a point and in an exponent.
-/

namespace LineCalc

inductive JsonToken
  | openObject
  | closeObject
  | openArray
  | closeArray
  | comma
  | colon
  | null
  | bool (value : Bool)
  | number (literal : List Char)
  | string (units : List Nat)
deriving DecidableEq, Repr

def isJsonBlank (c : Char) : Bool :=
  c = ' ' || c = '\t' || c = '\n' || c = '\r'

/-!
## Strings
-/

def hexValue? (c : Char) : Option Nat :=
  if c.isDigit then some (c.toNat - 48)
  else if 'a' ≤ c ∧ c ≤ 'f' then some (c.toNat - 87)
  else if 'A' ≤ c ∧ c ≤ 'F' then some (c.toNat - 55)
  else none

/-- The number that four hexadecimal digits name. -/
def hexUnit? (a b c d : Char) : Option Nat := do
  let a ← hexValue? a
  let b ← hexValue? b
  let c ← hexValue? c
  let d ← hexValue? d
  return ((a * 16 + b) * 16 + c) * 16 + d

/-- The code unit that a character stands for behind a backslash. -/
def simpleEscape? : Char -> Option Nat
  | '"' => some 0x22
  | '\\' => some 0x5c
  | '/' => some 0x2f
  | 'b' => some 0x08
  | 'f' => some 0x0c
  | 'n' => some 0x0a
  | 'r' => some 0x0d
  | 't' => some 0x09
  | _ => none

/-- The code units of a string up to its closing quote, and what follows. -/
def scanJsonString? : List Char -> Option (List Nat × List Char)
  | [] => none
  | '"' :: rest => some ([], rest)
  | '\\' :: 'u' :: a :: b :: c :: d :: rest => do
      let unit ← hexUnit? a b c d
      let (units, rest) ← scanJsonString? rest
      return (unit :: units, rest)
  | '\\' :: c :: rest => do
      let unit ← simpleEscape? c
      let (units, rest) ← scanJsonString? rest
      return (unit :: units, rest)
  | c :: rest =>
      if c.toNat < 0x20 then
        none
      else do
        let (units, rest) ← scanJsonString? rest
        return (units16 c ++ units, rest)

theorem length_of_scanJsonString? {text rest : List Char} {units : List Nat}
    (h : scanJsonString? text = some (units, rest)) :
    rest.length < text.length := by
  fun_induction scanJsonString? text generalizing units with
  | case1 => simp at h
  | case2 rest' => simp_all
  | case3 a b c d rest' ih =>
      simp only [Option.bind_eq_bind, Option.bind_eq_some_iff, Option.pure_def,
        Option.some.injEq, Prod.exists, Prod.mk.injEq] at h
      rcases h with ⟨unit, -, units', rest'', htail, -, rfl⟩
      have hshorter := ih htail
      simp only [List.length_cons]
      omega
  | case4 c rest' _ ih =>
      simp only [Option.bind_eq_bind, Option.bind_eq_some_iff, Option.pure_def,
        Option.some.injEq, Prod.exists, Prod.mk.injEq] at h
      rcases h with ⟨unit, -, units', rest'', htail, -, rfl⟩
      have hshorter := ih htail
      simp only [List.length_cons]
      omega
  | case5 => simp at h
  | case6 c rest' _ _ _ _ ih =>
      simp only [Option.bind_eq_bind, Option.bind_eq_some_iff, Option.pure_def,
        Option.some.injEq, Prod.exists, Prod.mk.injEq] at h
      rcases h with ⟨units', rest'', htail, -, rfl⟩
      have hshorter := ih htail
      simp only [List.length_cons]
      omega

/-!
## Numbers
-/

/-- A run of at least one digit, and what follows. -/
def scanDigits? (text : List Char) : Option (List Char × List Char) :=
  let digits := text.takeWhile Char.isDigit
  if digits = [] then none else some (digits, text.dropWhile Char.isDigit)

/-- The part of a number before any point: a zero alone, or digits that do not
start with one. -/
def scanWhole? : List Char -> Option (List Char × List Char)
  | '0' :: rest => some (['0'], rest)
  | text => scanDigits? text

/-- The point and the digits behind it, if there is a point. -/
def scanFraction? : List Char -> Option (List Char × List Char)
  | '.' :: rest =>
      (scanDigits? rest).map fun (digits, rest) => ('.' :: digits, rest)
  | text => some ([], text)

/-- The sign of an exponent, if there is one. -/
def scanSign : List Char -> List Char × List Char
  | '+' :: rest => (['+'], rest)
  | '-' :: rest => (['-'], rest)
  | text => ([], text)

/-- The exponent, if there is one. -/
def scanExponent? : List Char -> Option (List Char × List Char)
  | [] => some ([], [])
  | c :: rest =>
      if c = 'e' ∨ c = 'E' then
        let (sign, rest) := scanSign rest
        (scanDigits? rest).map fun (digits, rest) => (c :: sign ++ digits, rest)
      else
        some ([], c :: rest)

/-- A number as it is spelled, and what follows. -/
def scanJsonNumber? (text : List Char) : Option (List Char × List Char) := do
  let (sign, text) :=
    if text.head? = some '-' then (['-'], text.tail) else ([], text)
  let (whole, text) ← scanWhole? text
  let (fraction, text) ← scanFraction? text
  let (exponent, text) ← scanExponent? text
  return (sign ++ whole ++ fraction ++ exponent, text)

theorem eq_append_of_scanDigits? {text digits rest : List Char}
    (h : scanDigits? text = some (digits, rest)) :
    text = digits ++ rest ∧ digits ≠ [] := by
  simp only [scanDigits?] at h
  split at h
  · simp at h
  · rename_i hdigits
    simp only [Option.some.injEq, Prod.mk.injEq] at h
    rcases h with ⟨rfl, rfl⟩
    exact ⟨List.takeWhile_append_dropWhile.symm, hdigits⟩

theorem eq_append_of_scanWhole? {text whole rest : List Char}
    (h : scanWhole? text = some (whole, rest)) :
    text = whole ++ rest ∧ whole ≠ [] := by
  unfold scanWhole? at h
  split at h
  · simp only [Option.some.injEq, Prod.mk.injEq] at h
    rcases h with ⟨rfl, rfl⟩
    simp
  · exact eq_append_of_scanDigits? h

theorem eq_append_of_scanFraction? {text fraction rest : List Char}
    (h : scanFraction? text = some (fraction, rest)) :
    text = fraction ++ rest := by
  unfold scanFraction? at h
  split at h
  · simp only [Option.map_eq_some_iff, Prod.exists, Prod.mk.injEq] at h
    rcases h with ⟨digits, rest', hfound, rfl, rfl⟩
    simp [(eq_append_of_scanDigits? hfound).left]
  · simp_all

theorem eq_append_scanSign (text : List Char) :
    text = (scanSign text).1 ++ (scanSign text).2 := by
  unfold scanSign
  split <;> rfl

theorem eq_append_of_scanExponent? {text exponent rest : List Char}
    (h : scanExponent? text = some (exponent, rest)) :
    text = exponent ++ rest := by
  unfold scanExponent? at h
  split at h
  · simp_all
  · rename_i c tail
    split at h
    · simp only [Option.map_eq_some_iff, Prod.exists, Prod.mk.injEq] at h
      rcases h with ⟨digits, rest', hfound, rfl, rfl⟩
      have htail := eq_append_scanSign tail
      rw [(eq_append_of_scanDigits? hfound).left] at htail
      simpa using htail
    · simp_all

/-- A number is the beginning of the text and takes at least one character. -/
theorem eq_append_of_scanJsonNumber? {text literal rest : List Char}
    (h : scanJsonNumber? text = some (literal, rest)) :
    text = literal ++ rest ∧ literal ≠ [] := by
  have hsign : exists sign tail,
      (if text.head? = some '-' then (['-'], text.tail) else ([], text)) =
        (sign, tail) ∧ text = sign ++ tail := by
    cases text with
    | nil => exact ⟨[], [], by simp⟩
    | cons c tail =>
        by_cases hminus : c = '-'
        · exact ⟨['-'], tail, by simp [hminus]⟩
        · exact ⟨[], c :: tail, by simp [hminus]⟩
  rcases hsign with ⟨sign, tail, hsplit, rfl⟩
  simp only [scanJsonNumber?, hsplit, Option.bind_eq_bind,
    Option.bind_eq_some_iff, Option.pure_def, Option.some.injEq, Prod.exists,
    Prod.mk.injEq] at h
  rcases h with ⟨whole, rest₁, hwhole, fraction, rest₂, hfraction, exponent,
    rest₃, hexponent, rfl, rfl⟩
  rcases eq_append_of_scanWhole? hwhole with ⟨rfl, hdigits⟩
  rcases eq_append_of_scanFraction? hfraction with rfl
  rcases eq_append_of_scanExponent? hexponent with rfl
  simp [hdigits]

/-!
## Texts
-/

namespace JsonToken

/-- The token at the beginning of a text, and what follows. -/
def scan? : List Char -> Option (JsonToken × List Char)
  | '\x7b' :: rest => some (openObject, rest)
  | '\x7d' :: rest => some (closeObject, rest)
  | '[' :: rest => some (openArray, rest)
  | ']' :: rest => some (closeArray, rest)
  | ',' :: rest => some (comma, rest)
  | ':' :: rest => some (colon, rest)
  | 'n' :: 'u' :: 'l' :: 'l' :: rest => some (null, rest)
  | 't' :: 'r' :: 'u' :: 'e' :: rest => some (bool true, rest)
  | 'f' :: 'a' :: 'l' :: 's' :: 'e' :: rest => some (bool false, rest)
  | '"' :: rest =>
      (scanJsonString? rest).map fun (units, rest) => (string units, rest)
  | text =>
      (scanJsonNumber? text).map fun (literal, rest) => (number literal, rest)

theorem length_of_scan? {text rest : List Char} {token : JsonToken}
    (h : scan? text = some (token, rest)) : rest.length < text.length := by
  unfold scan? at h
  split at h
  case h_10 =>
    simp only [Option.map_eq_some_iff, Prod.exists, Prod.mk.injEq] at h
    rcases h with ⟨units, rest', hfound, _, rfl⟩
    have hshorter := length_of_scanJsonString? hfound
    simp only [List.length_cons]
    omega
  case h_11 =>
    simp only [Option.map_eq_some_iff, Prod.exists, Prod.mk.injEq] at h
    rcases h with ⟨literal, rest', hfound, _, rfl⟩
    rcases eq_append_of_scanJsonNumber? hfound with ⟨rfl, hne⟩
    have hpos := List.length_pos_iff.mpr hne
    simp only [List.length_append]
    omega
  all_goals
    simp only [Option.some.injEq, Prod.mk.injEq] at h
    rcases h with ⟨-, rfl⟩
    simp only [List.length_cons]
    omega

/-- The tokens of a text, if it consists of tokens and blanks. -/
def scanAll? (text : List Char) : Option (List JsonToken) :=
  match text with
  | [] => some []
  | c :: rest =>
      if isJsonBlank c then
        scanAll? rest
      else
        match _found : scan? (c :: rest) with
        | none => none
        | some (token, remaining) => (scanAll? remaining).map (token :: ·)
termination_by text.length
decreasing_by
  · simp
  · exact length_of_scan? _found

end JsonToken

end LineCalc
