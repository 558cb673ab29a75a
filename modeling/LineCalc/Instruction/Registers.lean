import LineCalc.Instruction.Basic

/-!
# Registers of code

An instruction writes at most one register and reads up to two.  The registers
that a block of code writes and reads are listed in the order of its
instructions, each as often as it is written or read.
-/

namespace LineCalc

namespace Instruction

def target? : Instruction -> Option Nat
  | loadImmediate register _ => some register
  | load register _ => some register
  | move _ target => some target
  | binary _ _ _ target => some target
  | _ => none

def sources : Instruction -> List Nat
  | store _ register => [register]
  | move source _ => [source]
  | binary _ left right _ => [left, right]
  | _ => []

def written (code : List Instruction) : List Nat :=
  code.filterMap target?

def read (code : List Instruction) : List Nat :=
  code.flatMap sources

@[simp] theorem written_append (left right : List Instruction) :
    written (left ++ right) = written left ++ written right :=
  List.filterMap_append

@[simp] theorem written_singleton (instruction : Instruction) :
    written [instruction] = instruction.target?.toList := by
  cases instruction <;> rfl

@[simp] theorem read_append (left right : List Instruction) :
    read (left ++ right) = read left ++ read right :=
  List.flatMap_append

@[simp] theorem read_singleton (instruction : Instruction) :
    read [instruction] = instruction.sources := by
  cases instruction <;> rfl

theorem mem_written {code : List Instruction} {instruction : Instruction}
    {register : Nat} (hmem : instruction ∈ code)
    (htarget : instruction.target? = some register) :
    register ∈ written code :=
  List.mem_filterMap.mpr ⟨instruction, hmem, htarget⟩

theorem mem_read {code : List Instruction} {instruction : Instruction}
    {register : Nat} (hmem : instruction ∈ code)
    (hsource : register ∈ instruction.sources) :
    register ∈ read code :=
  List.mem_flatMap.mpr ⟨instruction, hmem, hsource⟩

/-!
## Reading what has been written
-/

/-- Code that reads no register before it has written it. -/
inductive ReadsWritten : List Instruction -> Prop where
  | nil :
      ReadsWritten []
  | concat {code : List Instruction} {instruction : Instruction} :
      ReadsWritten code ->
      (forall register, register ∈ instruction.sources ->
        register ∈ written code) ->
      ReadsWritten (code ++ [instruction])

namespace ReadsWritten

theorem append {left right : List Instruction} (hleft : ReadsWritten left)
    (hright : ReadsWritten right) : ReadsWritten (left ++ right) := by
  induction hright with
  | nil =>
      rw [List.append_nil]
      exact hleft
  | concat _ hsources ih =>
      rw [← List.append_assoc]
      refine ih.concat ?_
      intro register hregister
      rw [written_append]
      exact List.mem_append_right _ (hsources register hregister)

theorem move {code : List Instruction} {source : Nat} (h : ReadsWritten code)
    (hsource : source ∈ written code) (target : Nat) :
    ReadsWritten (code ++ [.move source target]) := by
  refine h.concat ?_
  intro register hregister
  rwa [List.mem_singleton.mp hregister]

theorem binary {before inside : List Instruction} {left right : Nat}
    (hbefore : ReadsWritten before) (hinside : ReadsWritten inside)
    (hleft : left ∈ written before) (hright : right ∈ written inside)
    (op : Operator) (target : Nat) :
    ReadsWritten (before ++ inside ++ [.binary op left right target]) := by
  refine (hbefore.append hinside).concat ?_
  intro register hregister
  rw [written_append]
  rcases List.mem_cons.mp hregister with rfl | hother
  · exact List.mem_append_left _ hleft
  · rw [List.mem_singleton.mp hother]
    exact List.mem_append_right _ hright

theorem mem_written_of_mem_read {code : List Instruction}
    (h : ReadsWritten code) {register : Nat} (hread : register ∈ read code) :
    register ∈ written code := by
  induction h with
  | nil => cases hread
  | concat _ hsources ih =>
      rw [read_append, read_singleton] at hread
      rw [written_append]
      rcases List.mem_append.mp hread with hbefore | hlast
      · exact List.mem_append_left _ (ih hbefore)
      · exact List.mem_append_left _ (hsources register hlast)

/-- If no register is written twice, every one is read behind the instruction
that writes it. -/
theorem lt {code : List Instruction} (h : ReadsWritten code)
    (honce : (written code).Nodup) {i j register : Nat}
    {writer reader : Instruction} (hwriter : code[i]? = some writer)
    (hreader : code[j]? = some reader)
    (htarget : writer.target? = some register)
    (hsource : register ∈ reader.sources) : i < j := by
  induction h with
  | nil => cases hwriter
  | @concat code last hcode hsources ih =>
      rw [written_append, written_singleton] at honce
      rcases List.nodup_append.mp honce with ⟨hbefore, _, hapart⟩
      have hi : i < code.length + 1 := by
        simpa using (List.getElem?_eq_some_iff.mp hwriter).choose
      have hj : j < code.length + 1 := by
        simpa using (List.getElem?_eq_some_iff.mp hreader).choose
      have hwritten : register ∈ written code := by
        rcases Nat.lt_succ_iff_lt_or_eq.mp hj with hfront | rfl
        · rw [List.getElem?_append_left hfront] at hreader
          exact hcode.mem_written_of_mem_read
            (mem_read (List.mem_of_getElem? hreader) hsource)
        · rw [List.getElem?_concat_length] at hreader
          exact hsources register (Option.some.inj hreader ▸ hsource)
      rcases Nat.lt_succ_iff_lt_or_eq.mp hi with hfront | rfl
      · rcases Nat.lt_succ_iff_lt_or_eq.mp hj with hinside | rfl
        · rw [List.getElem?_append_left hfront] at hwriter
          rw [List.getElem?_append_left hinside] at hreader
          exact ih hbefore hwriter hreader
        · exact hfront
      · rw [List.getElem?_concat_length] at hwriter
        have hlast : register ∈ last.target?.toList := by
          rw [Option.some.inj hwriter, htarget]
          exact List.mem_singleton_self register
        exact absurd rfl (hapart register hwritten register hlast)

end ReadsWritten

end Instruction

end LineCalc
