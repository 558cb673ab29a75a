import Std.Data.String.ToNat
import LineCalc.Instruction.Text
import LineCalc.Proofs.Binary64.Text
import LineCalc.Proofs.Text.Lines

/-!
# Programs in listings

The mnemonic of an instruction ends at the first space of its text, and its
operands have none, so an instruction can be told from its text.  The lines of a
listing have a margin of the same width, so a program can be told from its
listing.
-/

namespace LineCalc

/-!
## Words and spaces
-/

theorem eq_of_append_space_eq {word other rest rest' : List Char}
    (hword : ' ' ∉ word) (hother : ' ' ∉ other)
    (hrest : forall c, rest.head? = some c -> c = ' ')
    (hrest' : forall c, rest'.head? = some c -> c = ' ')
    (h : word ++ rest = other ++ rest') :
    word = other ∧ rest = rest' := by
  have hchars : forall text : List Char, ' ' ∉ text ->
      forall c, c ∈ text -> decide (c ≠ ' ') = true := by
    intro text htext c hc
    apply decide_eq_true
    rintro rfl
    exact htext hc
  rcases eq_takeWhile_of_append (hchars word hword)
    (fun c hc => decide_eq_false (not_not.mpr (hrest c hc))) with ⟨htake, hdrop⟩
  rcases eq_takeWhile_of_append (hchars other hother)
    (fun c hc => decide_eq_false (not_not.mpr (hrest' c hc))) with
      ⟨htake', hdrop'⟩
  rw [h] at htake hdrop
  exact ⟨htake.symm.trans htake', hdrop.symm.trans hdrop'⟩

def Unblank (text : String) : Prop :=
  forall c, c ∈ text.toList -> isBlank c = false

theorem unblank_of_all {text : String}
    (h : text.toList.all (fun c => !isBlank c) = true) :
    Unblank text := by
  intro c hc
  simpa using List.all_eq_true.mp h c hc

theorem Unblank.append {text other : String} (htext : Unblank text)
    (hother : Unblank other) :
    Unblank (text ++ other) := by
  intro c hc
  rw [String.toList_append] at hc
  exact (List.mem_append.mp hc).elim (htext c) (hother c)

theorem Unblank.space_notMem {text : String} (h : Unblank text) :
    ' ' ∉ text.toList := by
  intro hspace
  cases h _ hspace

theorem unblank_repr (n : Nat) : Unblank n.repr := by
  intro c hc
  rw [Nat.repr_eq_ofList_toDigits, String.toList_ofList] at hc
  have hdigit := Nat.isDigit_of_mem_toDigits (by decide) (by decide) hc
  exact isBlank_eq_false_of_startsToken
    (startsToken_of_isNumeralChar (isNumeralChar_of_isDigit hdigit))

def spaced (words : List String) : List Char :=
  words.flatMap fun word => ' ' :: word.toList

theorem head?_spaced {words : List String} {c : Char}
    (hc : (spaced words).head? = some c) :
    c = ' ' := by
  cases words with
  | nil => cases hc
  | cons word words => exact (Option.some.inj hc).symm

theorem spaced_injOn {words others : List String}
    (hwords : forall word, word ∈ words -> ' ' ∉ word.toList)
    (hothers : forall word, word ∈ others -> ' ' ∉ word.toList)
    (h : spaced words = spaced others) : words = others := by
  induction words generalizing others with
  | nil =>
      cases others with
      | nil => rfl
      | cons other others => cases h
  | cons word words ih =>
      cases others with
      | nil => cases h
      | cons other others =>
          rw [List.forall_mem_cons] at hwords hothers
          have hfirst : word.toList ++ spaced words =
              other.toList ++ spaced others :=
            List.tail_eq_of_cons_eq h
          rcases eq_of_append_space_eq hwords.left hothers.left
            (fun _ => head?_spaced)
            (fun _ => head?_spaced) hfirst with ⟨hword, hrest⟩
          rw [String.toList_inj.mp hword, ih hwords.right hothers.right hrest]

/-!
## Texts of instructions
-/

theorem Operator.mnemonic_inj {op other : Operator} :
    op.mnemonic = other.mnemonic <-> op = other := by
  refine ⟨fun h => ?_, fun h => h ▸ rfl⟩
  rcases op with op | op <;> rcases other with other | other <;> cases op <;>
    cases other <;>
    first | rfl | simp [mnemonic] at h

namespace Instruction

variable {left right : Instruction}

theorem eq_of_operands_eq (hmnemonic : left.mnemonic = right.mnemonic)
    (hoperands : left.operands = right.operands) : left = right := by
  cases left <;> cases right <;>
    simp_all [mnemonic, operands, Operator.mnemonic_inj,
      registerText, addressText, String.append_right_inj, Nat.repr_inj]

def padding (mnemonic : String) : Nat :=
  if mnemonic = "halt" then 0 else 6 - mnemonic.toList.length

theorem toList_text (instruction : Instruction) :
    instruction.text.toList = instruction.mnemonic.toList ++
      (List.replicate (padding instruction.mnemonic) ' ' ++
        spaced instruction.operands) := by
  cases instruction with
  | halt => rfl
  | binary op left right target =>
      rcases op with op | op <;> cases op <;>
        simp [text, operands, mnemonic, Operator.mnemonic, padding,
          List.rightpad, spaced]
  | _ => simp [text, operands, mnemonic, padding, List.rightpad, spaced]

theorem head?_behind_mnemonic {n : Nat} {c : Char}
    (hc : (List.replicate n ' ' ++ spaced left.operands).head? = some c) :
    c = ' ' := by
  cases n with
  | zero => exact head?_spaced hc
  | succ n => exact (Option.some.inj hc).symm

theorem mem_mnemonics (instruction : Instruction) :
    instruction.mnemonic ∈ ["loadi", "load", "store", "storei", "mov", "add",
      "sub", "mul", "div", "halt"] := by
  cases instruction with
  | binary op _ _ _ => rcases op with op | op <;> cases op <;>
      simp [mnemonic, Operator.mnemonic]
  | _ => simp [mnemonic]

theorem unblank_mnemonic (instruction : Instruction) :
    Unblank instruction.mnemonic := by
  have hall : ["loadi", "load", "store", "storei", "mov", "add",
      "sub", "mul", "div",
      "halt"].all (fun text => text.toList.all fun c => !isBlank c) = true := by
    decide
  exact unblank_of_all (List.all_eq_true.mp hall _ instruction.mem_mnemonics)

theorem unblank_operand {operand : String}
    (hoperand : operand ∈ left.operands) :
    Unblank operand := by
  have hregister : forall n, Unblank (registerText n) :=
    fun n => (unblank_of_all (by decide)).append (unblank_repr n)
  have haddress : forall n, Unblank (addressText n) :=
    fun n => (unblank_of_all (by decide)).append (unblank_repr n)
  have hvalue : forall value : Binary64, Unblank value.plainText := by
    intro value c hc
    rw [Binary64.plainText, String.toList_ofList] at hc
    exact isBlank_eq_false_of_startsToken
      (Binary64.startsToken_of_mem_plainChars hc)
  cases left <;> simp only [operands, List.mem_cons, List.not_mem_nil,
    or_false] at hoperand <;>
    grind

theorem text_inj : left.text = right.text <-> left = right := by
  refine ⟨fun h => ?_, fun h => h ▸ rfl⟩
  have htexts := congrArg String.toList h
  rw [toList_text, toList_text] at htexts
  rcases eq_of_append_space_eq left.unblank_mnemonic.space_notMem
    right.unblank_mnemonic.space_notMem (fun _ => head?_behind_mnemonic)
    (fun _ => head?_behind_mnemonic) htexts with ⟨hmnemonic, hbehind⟩
  rw [String.toList_inj] at hmnemonic
  rw [hmnemonic] at hbehind
  exact eq_of_operands_eq hmnemonic
    (spaced_injOn (fun _ hoperand => (unblank_operand hoperand).space_notMem)
      (fun _ hoperand => (unblank_operand hoperand).space_notMem)
      (List.append_cancel_left hbehind))

theorem exists_text_eq (instruction : Instruction) :
    exists rest, instruction.text = instruction.mnemonic ++ rest ∧
      forall c, rest.toList.head? = some c -> c = ' ' := by
  refine ⟨String.ofList (List.replicate (padding instruction.mnemonic) ' ' ++
    spaced instruction.operands), ?_, ?_⟩
  · rw [← String.toList_inj, String.toList_append,
      String.toList_ofList, toList_text]
  · intro c hc
    rw [String.toList_ofList] at hc
    exact head?_behind_mnemonic hc

theorem lineFeed_notMem_text (instruction : Instruction) :
    '\n' ∉ instruction.text.toList := by
  rw [toList_text, List.mem_append, List.mem_append]
  rintro (hmem | hmem | hmem)
  · cases instruction.unblank_mnemonic _ hmem
  · cases List.eq_of_mem_replicate hmem
  · rcases List.mem_flatMap.mp hmem with ⟨operand, hoperand, hmem⟩
    rcases List.mem_cons.mp hmem with hfeed | hmem
    · cases hfeed
    · cases unblank_operand hoperand _ hmem

end Instruction

/-!
## Listings
-/

def addressWidth (code : List Instruction) : Nat :=
  (Nat.toDigits 10 (code.length - 1)).length

def margin (width address : Nat) : String :=
  String.ofList ((Nat.toDigits 10 address).leftpad width ' ') ++ "  "

def listed (code : List Instruction) : List String :=
  code.mapIdx fun address instruction =>
    margin (addressWidth code) address ++ instruction.text

theorem listing_eq (code : List Instruction) :
    listing code = endedLines (listed code) := by
  unfold listing endedLines listed
  rw [List.mapIdx_eq_zipIdx_map, List.map_map]
  rfl

theorem length_repr (n : Nat) : n.repr.length = (Nat.toDigits 10 n).length := by
  rw [Nat.repr_eq_ofList_toDigits, String.length_ofList]

theorem length_repr_le_addressWidth {code : List Instruction} {address : Nat}
    (h : address < code.length) : address.repr.length ≤ addressWidth code := by
  have hlast :=
    (Nat.length_toDigits_le_iff (b := 10) (by decide) Nat.length_toDigits_pos).mp
      (Nat.le_refl (Nat.toDigits 10 (code.length - 1)).length)
  rw [length_repr, addressWidth,
    Nat.length_toDigits_le_iff (by decide) Nat.length_toDigits_pos]
  exact Nat.lt_of_le_of_lt (Nat.le_sub_one_of_lt h) hlast

theorem margin_eq (width address : Nat) :
    margin width address =
      String.ofList (List.replicate (width - address.repr.length) ' ') ++
        address.repr ++ "  " := by
  rw [margin, List.leftpad, String.ofList_append, length_repr,
    ← Nat.repr_eq_ofList_toDigits]

theorem lineFeed_notMem_margin (width address : Nat) :
    '\n' ∉ (margin width address).toList := by
  rw [margin_eq, String.toList_append, String.toList_append,
    String.toList_ofList]
  intro hmem
  simp only [List.mem_append] at hmem
  rcases hmem with (hmem | hmem) | hmem
  · cases List.eq_of_mem_replicate hmem
  · cases unblank_repr address _ hmem
  · simp at hmem

theorem lineFeed_notMem_listed {code : List Instruction} {line : String}
    (hline : line ∈ listed code) : '\n' ∉ line.toList := by
  rcases List.mem_mapIdx.mp hline with ⟨address, haddress, rfl⟩
  rw [String.toList_append, List.mem_append]
  rintro (hmem | hmem)
  · exact lineFeed_notMem_margin _ _ hmem
  · exact Instruction.lineFeed_notMem_text _ hmem

theorem listing_inj {left right : List Instruction} :
    listing left = listing right <-> left = right := by
  refine ⟨fun h => ?_, fun h => h ▸ rfl⟩
  rw [listing_eq, listing_eq] at h
  have hlines := eq_of_endedLines_eq (fun _ => lineFeed_notMem_listed)
    (fun _ => lineFeed_notMem_listed) h
  have hlength : left.length = right.length := by
    simpa [listed] using congrArg List.length hlines
  have hwidth : addressWidth left = addressWidth right := by
    rw [addressWidth, addressWidth, hlength]
  apply List.ext_getElem hlength
  intro address hleft hright
  have hline : margin (addressWidth left) address ++ left[address].text =
      margin (addressWidth right) address ++ right[address].text := by
    have hsame := congrArg (fun lines => lines[address]?) hlines
    simpa only [listed, List.getElem?_mapIdx, List.getElem?_eq_getElem hleft,
      List.getElem?_eq_getElem hright, Option.map_some,
      Option.some.injEq] using hsame
  rw [hwidth, String.append_right_inj] at hline
  exact Instruction.text_inj.mp hline

/-- A listing tells its program: it has one line for each instruction, with the
address at the right of a column and the mnemonic two spaces behind this, and no
two programs share it. -/
theorem listing_tells_program :
    (forall left right : List Instruction, listing left = listing right <->
      left = right) ∧
    forall code : List Instruction, exists lines : List String,
      listing code = endedLines lines ∧
      (forall line, line ∈ lines -> '\n' ∉ line.toList) ∧
      lines.length = code.length ∧
      forall (address : Nat) (instruction : Instruction),
        code[address]? = some instruction ->
        exists (padding : Nat) (operands : String),
          lines[address]? =
            some (String.ofList (List.replicate padding ' ') ++ address.repr ++
            "  " ++ instruction.mnemonic ++ operands) ∧
          padding + address.repr.length = (code.length - 1).repr.length ∧
          forall c, operands.toList.head? = some c -> c = ' ' := by
  refine ⟨fun _ _ => listing_inj, fun code => ⟨listed code, listing_eq code,
    fun _ => lineFeed_notMem_listed, List.length_mapIdx, ?_⟩⟩
  intro address instruction haddress
  have hfits :=
    length_repr_le_addressWidth (List.getElem?_eq_some_iff.mp haddress).choose
  rcases instruction.exists_text_eq with ⟨operands, htext, hoperands⟩
  refine ⟨addressWidth code - address.repr.length, operands, ?_, ?_, hoperands⟩
  · rw [listed, List.getElem?_mapIdx, haddress, Option.map_some,
      htext, margin_eq, ← String.append_assoc]
  · rw [Nat.sub_add_cancel hfits, length_repr]
    rfl

end LineCalc
