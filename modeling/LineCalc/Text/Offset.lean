/-!
# Byte offsets

Positions in a line count the bytes of its UTF-8 encoding.  A text can be cut at
the offsets that lie between two characters or at one of its ends.
-/

namespace LineCalc

def byteLength : List Char -> Nat
  | [] => 0
  | c :: text => c.utf8Size + byteLength text

@[simp] theorem byteLength_nil : byteLength [] = 0 :=
  rfl

@[simp] theorem byteLength_cons (c : Char) (text : List Char) :
    byteLength (c :: text) = c.utf8Size + byteLength text :=
  rfl

@[simp] theorem byteLength_append (left right : List Char) :
    byteLength (left ++ right) = byteLength left + byteLength right := by
  induction left with
  | nil => simp
  | cons c left ih => simp [ih, Nat.add_assoc]

/-- The parts of a text before and after a byte offset, unless the offset falls
inside a character or behind the text. -/
def cutAt? : Nat -> List Char -> Option (List Char × List Char)
  | 0, text => some ([], text)
  | _ + 1, [] => none
  | offset + 1, c :: rest =>
      if c.utf8Size ≤ offset + 1 then
        (cutAt? (offset + 1 - c.utf8Size) rest).map fun (before, after) =>
          (c :: before, after)
      else
        none

theorem eq_append_of_cutAt? {offset : Nat} {text before after : List Char}
    (h : cutAt? offset text = some (before, after)) :
    text = before ++ after ∧ byteLength before = offset := by
  fun_induction cutAt? offset text generalizing before with
  | case1 text =>
      cases h
      exact ⟨rfl, rfl⟩
  | case2 offset => cases h
  | case3 offset c rest hfits ih =>
      rcases Option.map_eq_some_iff.mp h with ⟨⟨front, back⟩, hcut, hparts⟩
      cases hparts
      rcases ih hcut with ⟨rfl, hlength⟩
      refine ⟨rfl, ?_⟩
      rw [byteLength_cons, hlength]
      exact Nat.add_sub_cancel' hfits
  | case4 offset c rest _ => cases h

theorem cutAt?_append (before after : List Char) :
    cutAt? (byteLength before) (before ++ after) = some (before, after) := by
  induction before with
  | nil => simp [cutAt?]
  | cons c before ih =>
      have hpos := c.utf8Size_pos
      cases hlength : byteLength (c :: before) with
      | zero =>
          rw [byteLength_cons] at hlength
          omega
      | succ offset =>
          rw [byteLength_cons] at hlength
          have hrest : offset + 1 - c.utf8Size = byteLength before := by omega
          rw [List.cons_append, cutAt?, if_pos (by omega), hrest, ih]
          rfl

theorem cutAt?_eq_some_iff {offset : Nat} {text before after : List Char} :
    cutAt? offset text = some (before, after) <->
      text = before ++ after ∧ byteLength before = offset := by
  constructor
  · exact eq_append_of_cutAt?
  · rintro ⟨rfl, rfl⟩
    exact cutAt?_append before after

/-- Whether an offset lies between two characters of a text or at one of its
ends. -/
def IsBoundary (offset : Nat) (text : List Char) : Prop :=
  exists before after, text = before ++ after ∧ byteLength before = offset

theorem cutAt?_eq_none_iff {offset : Nat} {text : List Char} :
    cutAt? offset text = none <-> ¬ IsBoundary offset text := by
  constructor
  · rintro h ⟨before, after, hcut⟩
    rw [cutAt?_eq_some_iff.mpr hcut] at h
    cases h
  · intro h
    cases hcut : cutAt? offset text with
    | none => rfl
    | some parts =>
        exact absurd ⟨parts.fst, parts.snd, cutAt?_eq_some_iff.mp hcut⟩ h

end LineCalc
