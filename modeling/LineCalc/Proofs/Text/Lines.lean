import LineCalc.Proofs.Text.Trimming

/-!
# The lines of a text

A line feed is one byte that occurs in the encoding of no other character.  So
the bytes of a text fall into lines where the text does, and each of these lines
can be decoded.
-/

namespace LineCalc

/-- The lines that the line feeds of a text stand between.  A line feed at the
end may end the last line or have an empty one behind it. -/
structure IsLines (lines : List String) (text : String) : Prop where
  nonempty : lines ≠ []
  unbroken : forall line, line ∈ lines -> '\n' ∉ line.toList
  joined : text = "\n".intercalate lines ∨ text = "\n".intercalate lines ++ "\n"

/-!
## Cutting
-/

variable {α : Type} {isEnd : α -> Bool}

theorem splitAfter_append_of_forall_not {list : List α} (rest : List α)
    (hne : list ≠ []) (hlist : forall a, a ∈ list -> isEnd a = false) :
    splitAfter isEnd (list ++ rest) =
      match splitAfter isEnd rest with
      | [] => [list]
      | piece :: pieces => (list ++ piece) :: pieces := by
  induction list with
  | nil => exact absurd rfl hne
  | cons a list ih =>
      have ha : ¬ isEnd a = true := by simp [hlist a List.mem_cons_self]
      rw [List.cons_append, splitAfter, if_neg ha]
      by_cases hempty : list = []
      · rw [hempty, List.nil_append]
        cases splitAfter isEnd rest <;> rfl
      · rw [ih hempty (fun b hb => hlist b (List.mem_cons_of_mem a hb))]
        cases splitAfter isEnd rest <;> rfl

theorem splitAfter_append_cons {list : List α} {a : α} (rest : List α)
    (hlist : forall b, b ∈ list -> isEnd b = false) (ha : isEnd a = true) :
    splitAfter isEnd (list ++ a :: rest) =
      (list ++ [a]) :: splitAfter isEnd rest := by
  have hcons : splitAfter isEnd (a :: rest) = [a] :: splitAfter isEnd rest := by
    rw [splitAfter, if_pos ha]
  by_cases hempty : list = []
  · rw [hempty, List.nil_append, List.nil_append, hcons]
  · rw [splitAfter_append_of_forall_not _ hempty hlist, hcons]

theorem splitAfter_of_forall_not {list : List α} (hne : list ≠ [])
    (hlist : forall a, a ∈ list -> isEnd a = false) :
    splitAfter isEnd list = [list] := by
  have happend := splitAfter_append_of_forall_not [] hne hlist
  rwa [List.append_nil] at happend

/-!
## Ended lines
-/

theorem splitAfter_endedLines {lines : List String}
    (hlines : forall line, line ∈ lines -> '\n' ∉ line.toList) :
    splitAfter (· = '\n') (endedLines lines).toList =
      lines.map fun line => line.toList ++ ['\n'] := by
  induction lines with
  | nil => rfl
  | cons line lines ih =>
      rw [List.forall_mem_cons] at hlines
      have hchars : forall c, c ∈ line.toList -> decide (c = '\n') = false := by
        intro c hc
        apply decide_eq_false
        rintro rfl
        exact hlines.left hc
      have htext : (endedLines (line :: lines)).toList =
          line.toList ++ '\n' :: (endedLines lines).toList := by
        simp [endedLines]
      rw [htext, splitAfter_append_cons _ hchars (decide_eq_true rfl),
        ih hlines.right, List.map_cons]

theorem eq_of_endedLines_eq {lines others : List String}
    (hlines : forall line, line ∈ lines -> '\n' ∉ line.toList)
    (hothers : forall line, line ∈ others -> '\n' ∉ line.toList)
    (h : endedLines lines = endedLines others) : lines = others := by
  have hsplit := splitAfter_endedLines hlines
  rw [h, splitAfter_endedLines hothers] at hsplit
  refine List.map_injective_iff.mpr ?_ hsplit.symm
  intro line other hline
  exact String.toList_inj.mp (List.append_cancel_right hline)

/-!
## Encodings
-/

theorem ne_lineFeed_of_mem_utf8EncodeChar {c : Char} {byte : UInt8}
    (hc : c ≠ '\n') (hbyte : byte ∈ String.utf8EncodeChar c) : byte ≠ 0x0a := by
  intro hfeed
  have hcode : c.val.toNat ≠ 10 :=
    fun hcode => hc (Char.ext (UInt32.toNat_inj.mp hcode))
  have hbyte' : exists n, n < 256 ∧ n ≠ 10 ∧ byte = UInt8.ofNat n := by
    rw [String.utf8EncodeChar] at hbyte
    split at hbyte
    · exact ⟨_, by omega, hcode, List.mem_singleton.mp hbyte⟩
    · split at hbyte
      · simp only [List.mem_cons, List.not_mem_nil, or_false] at hbyte
        rcases hbyte with h | h <;> exact ⟨_, by omega, by omega, h⟩
      · split at hbyte
        · simp only [List.mem_cons, List.not_mem_nil, or_false] at hbyte
          rcases hbyte with h | h | h <;> exact ⟨_, by omega, by omega, h⟩
        · simp only [List.mem_cons, List.not_mem_nil, or_false] at hbyte
          rcases hbyte with h | h | h | h <;> exact ⟨_, by omega, by omega, h⟩
  rcases hbyte' with ⟨n, hn, hten, rfl⟩
  have htoNat := congrArg UInt8.toNat hfeed
  rw [UInt8.toNat_ofNat', Nat.mod_eq_of_lt hn] at htoNat
  exact hten htoNat

theorem splitAfter_utf8Encode (text : List Char) :
    splitAfter (· = 0x0a) (text.flatMap String.utf8EncodeChar) =
      (splitAfter (· = '\n') text).map fun line =>
        line.flatMap String.utf8EncodeChar := by
  induction text with
  | nil => rfl
  | cons c rest ih =>
      rw [List.flatMap_cons]
      by_cases hc : c = '\n'
      · rw [hc, splitAfter, if_pos (by decide), List.map_cons, ← ih]
        have hfeed : String.utf8EncodeChar '\n' = [0x0a] := rfl
        rw [hfeed, List.singleton_append, splitAfter, if_pos (by decide)]
        rfl
      · have hbytes : forall byte, byte ∈ String.utf8EncodeChar c ->
            decide (byte = 0x0a) = false := by
          intro byte hbyte
          exact decide_eq_false (ne_lineFeed_of_mem_utf8EncodeChar hc hbyte)
        rw [splitAfter_append_of_forall_not _
          String.utf8EncodeChar_ne_nil hbytes, ih,
          splitAfter, if_neg (by simpa using hc)]
        cases splitAfter (· = '\n') rest <;> simp

theorem fromUTF8?_toUTF8 (text : String) :
    String.fromUTF8? text.toUTF8 = some text := by
  rw [String.fromUTF8?, String.toUTF8_eq_toByteArray, dif_pos text.isValidUTF8]
  rfl

theorem toUTF8_ofList (text : List Char) :
    (String.ofList text).toUTF8 =
      ⟨(text.flatMap String.utf8EncodeChar).toArray⟩ := by
  rw [String.toUTF8_eq_toByteArray, String.toByteArray_ofList, List.utf8Encode]
  apply ByteArray.ext
  exact List.data_toByteArray

theorem decodeLines_utf8Encode (lines : List (List Char)) :
    decodeLines (lines.map fun line => line.flatMap String.utf8EncodeChar) =
      (lines.map String.ofList, true) := by
  induction lines with
  | nil => rfl
  | cons line rest ih =>
      rw [List.map_cons, decodeLines, ← toUTF8_ofList, fromUTF8?_toUTF8, ih]
      rfl

/-- A stream that holds a text gives all of its lines. -/
theorem streamLines_toUTF8 (text : String) :
    streamLines text.toUTF8 =
      ((splitAfter (· = '\n') text.toList).map String.ofList, true) := by
  rw [← decodeLines_utf8Encode, ← splitAfter_utf8Encode, streamLines]
  conv => lhs; rw [← String.ofList_toList (s := text), toUTF8_ofList]

/-!
## Lines between line feeds
-/

theorem nonblankLines_splitAfter_intercalate {lines : List String}
    {ending : List Char} (hending : ending = [] ∨ ending = ['\n'])
    (hne : lines ≠ [])
    (hlines : forall line, line ∈ lines -> '\n' ∉ line.toList) :
    nonblankLines ((splitAfter (· = '\n')
      (("\n".intercalate lines).toList ++ ending)).map String.ofList) =
        nonblankLines lines := by
  induction lines with
  | nil => exact absurd rfl hne
  | cons line rest ih =>
      have hline : forall c, c ∈ line.toList -> decide (c = '\n') = false := by
        intro c hc
        exact decide_eq_false
          (fun heq => hlines line List.mem_cons_self (heq ▸ hc))
      have hterminated : forall after : List Char,
          (splitAfter (· = '\n') (line.toList ++ '\n' :: after)).map String.ofList =
            String.ofList (line.toList ++ ['\n']) ::
              (splitAfter (· = '\n') after).map String.ofList := by
        intro after
        rw [splitAfter_append_cons after hline (by decide), List.map_cons]
      have htrimmed : trimmedLine (String.ofList (line.toList ++ ['\n'])) =
          trimmedLine line := by
        rw [trimmedLine_ofList_concat (by decide), String.ofList_toList]
      cases rest with
      | nil =>
          rw [String.intercalate_singleton]
          rcases hending with rfl | rfl
          · rw [List.append_nil]
            by_cases hempty : line = ""
            · rw [hempty]
              rfl
            · have hne' : line.toList ≠ [] :=
                fun h => hempty (String.toList_eq_nil_iff.mp h)
              rw [splitAfter_of_forall_not hne' hline, List.map_singleton,
                String.ofList_toList]
          · rw [hterminated []]
            exact nonblankLines_cons_congr htrimmed rfl
      | cons next rest =>
          rw [String.intercalate_cons_cons, String.toList_append,
            String.toList_append, List.append_assoc, List.append_assoc]
          have hrest := ih (List.cons_ne_nil next rest)
            (fun other hother => hlines other (List.mem_cons_of_mem line hother))
          exact (congrArg nonblankLines (hterminated _)).trans
            (nonblankLines_cons_congr htrimmed hrest)

/-- What a text is cut into and the lines between its line feeds leave the
same. -/
theorem IsLines.nonblankLines_eq {lines : List String} {text : String}
    (h : IsLines lines text) :
    nonblankLines ((splitAfter (· = '\n') text.toList).map String.ofList) =
      nonblankLines lines := by
  rcases h.joined with rfl | rfl
  · have hopen :=
      nonblankLines_splitAfter_intercalate (Or.inl rfl) h.nonempty h.unbroken
    rwa [List.append_nil] at hopen
  · rw [String.toList_append]
    exact nonblankLines_splitAfter_intercalate
      (Or.inr rfl) h.nonempty h.unbroken

end LineCalc
