import LineCalc.Json.Text
import LineCalc.Proofs.Json.Scan

/-!
# Writing JSON

Compact texts spell the values that they are written for.
-/

namespace LineCalc

open JsonToken

def Unescaped (word : String) : Prop :=
  forall c, c ∈ word.toList -> 0x20 ≤ c.toNat ∧ c ≠ '"' ∧ c ≠ '\\'

instance (word : String) : Decidable (Unescaped word) :=
  List.decidableBAll
    (fun c : Char => 0x20 ≤ c.toNat ∧ c ≠ '"' ∧ c ≠ '\\') word.toList

theorem mapM_map_of_read {α β γ : Type} {write : α -> β} {read : β -> Option γ}
    {result : α -> γ} (h : forall item, read (write item) = some (result item))
    (items : List α) :
    (items.map write).mapM read = some (items.map result) := by
  have hread : read ∘ write = fun item => pure (result item) := funext h
  rw [List.mapM_map, hread, List.mapM_pure, Option.pure_def]

namespace JsonToken

variable {token : JsonToken} {tokens : List JsonToken} {word text : List Char}

theorem spelledAll_nil : SpelledAll [] [] :=
  .nil isBlanks_nil

theorem Spelled.alone (hword : Spelled token word) :
    SpelledAll [token] word := by
  have htext := hword.before spelledAll_nil
  rwa [List.append_nil] at htext

theorem isBody_of_unescaped {body : List Char}
    (h : forall c, c ∈ body -> 0x20 ≤ c.toNat ∧ c ≠ '"' ∧ c ≠ '\\') :
    IsBody (body.flatMap units16) body := by
  induction body with
  | nil => exact .nil
  | cons c body ih =>
      rw [List.forall_mem_cons] at h
      rcases h with ⟨⟨hvisible, hquote, hbackslash⟩, hbody⟩
      exact .plain hvisible hquote hbackslash (ih hbody)

theorem spelled_jsonWord {word : String} (h : Unescaped word) :
    Spelled (.string (word.toList.flatMap units16)) (jsonWord word).toList := by
  have htext : (jsonWord word).toList = '"' :: (word.toList ++ ['"']) := by
    simp [jsonWord]
  rw [htext]
  exact .string (isBody_of_unescaped h)

end JsonToken

namespace Json

/-!
## Values
-/

theorem spelled_text {word : String} (h : Unescaped word) :
    (text word).Spelled (jsonWord word) :=
  (spelled_jsonWord h).alone

theorem spelled_number {literal : List Char} (h : IsNumber literal) :
    (number literal).Spelled (String.ofList literal) := by
  rw [Json.Spelled, String.toList_ofList]
  exact (JsonToken.Spelled.number h).alone

theorem spelled_natural (n : Nat) : (natural n).Spelled n.repr := by
  rw [Nat.repr_eq_ofList_toDigits]
  exact spelled_number (isNumber_of_isWhole (isWhole_toDigits n))

@[simp] theorem natural?_natural (n : Nat) : (natural n).natural? = some n := by
  have hdigits : (Nat.toDigits 10 n).all Char.isDigit = true :=
    List.all_eq_true.mpr (isDigits_toDigits n).right
  rw [natural, natural?, if_pos hdigits, Nat.ofDigitChars_ten_toDigits]

theorem spelledAll_itemTokens {items : List Json} {texts : List String}
    (h : List.Forall₂ Json.Spelled items texts) :
    SpelledAll (itemTokens items) (",".intercalate texts).toList := by
  induction h with
  | nil => exact spelledAll_nil
  | @cons item text items texts hitem hitems ih =>
      cases hitems with
      | nil =>
          rw [itemTokens, String.intercalate_singleton]
          exact hitem
      | cons hnext hitems =>
          have hrest := hitem.append (JsonToken.Spelled.comma.before ih)
          rw [itemTokens, String.intercalate_cons_cons]
          · simpa [String.toList_append] using hrest
          · simp

theorem spelled_array {items : List Json} {texts : List String}
    (h : List.Forall₂ Json.Spelled items texts) :
    (array items).Spelled (jsonArray texts) := by
  have hitems :=
    (spelledAll_itemTokens h).append JsonToken.Spelled.closeArray.alone
  have htext := JsonToken.Spelled.openArray.before hitems
  simpa [Json.Spelled, tokens, jsonArray] using htext

/-!
## Objects
-/

structure Writes (member : String × Json)
    (written : String × String) : Prop where
  key : member.fst = written.fst
  unescaped : Unescaped written.fst
  spelled : member.snd.Spelled written.snd

theorem writes_natural {key : String} {n : Nat} (h : Unescaped key) :
    Writes (key, natural n) (key, n.repr) :=
  ⟨rfl, h, spelled_natural n⟩

theorem writes_text {key word : String} (hkey : Unescaped key)
    (hword : Unescaped word) :
    Writes (key, text word) (key, jsonWord word) :=
  ⟨rfl, hkey, spelled_text hword⟩

theorem Writes.spelledAll {member : String × Json} {written : String × String}
    (h : Writes member written) :
    SpelledAll (.string (member.fst.toList.flatMap units16) :: .colon ::
      member.snd.tokens)
      (jsonWord written.fst ++ ":" ++ written.snd).toList := by
  have hvalue := JsonToken.Spelled.colon.before h.spelled
  have hmember := (spelled_jsonWord h.unescaped).before hvalue
  rw [h.key]
  simpa [String.toList_append] using hmember

theorem spelledAll_memberTokens {members : List (String × Json)}
    {written : List (String × String)}
    (h : List.Forall₂ Writes members written) :
    SpelledAll
      (memberTokens (members.map fun (key, value) =>
        (key.toList.flatMap units16, value)))
      (",".intercalate (written.map fun (key, value) =>
        jsonWord key ++ ":" ++ value)).toList := by
  induction h with
  | nil => exact spelledAll_nil
  | @cons member text members written hmember hmembers ih =>
      cases hmembers with
      | nil =>
          rw [List.map_singleton, List.map_singleton, memberTokens,
            String.intercalate_singleton]
          exact hmember.spelledAll
      | cons hnext hmembers =>
          have hrest :=
            hmember.spelledAll.append (JsonToken.Spelled.comma.before ih)
          rw [List.map_cons, List.map_cons, List.map_cons,
            List.map_cons, memberTokens, String.intercalate_cons_cons]
          · simpa [String.toList_append] using hrest
          · simp

theorem spelled_named {members : List (String × Json)}
    {written : List (String × String)}
    (h : List.Forall₂ Writes members written) :
    (named members).Spelled (jsonObject written) := by
  have hmembers :=
    (spelledAll_memberTokens h).append JsonToken.Spelled.closeObject.alone
  have htext := JsonToken.Spelled.openObject.before hmembers
  simpa [Json.Spelled, named, tokens, jsonObject] using htext

end Json

end LineCalc
