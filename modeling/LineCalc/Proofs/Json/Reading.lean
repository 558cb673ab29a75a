import LineCalc.Json.Reading
import LineCalc.Proofs.Json.Scan

/-!
# Reading JSON

What has been read so far is always the beginning of what is spelled, token by
token, and the tokens of a value are read as the value whatever is open around
it.  So a text is read as a value exactly if it spells the value.
-/

namespace LineCalc

namespace Json

variable {item value : Json} {items : List Json} {key : List Nat}
  {members : List (List Nat × Json)}

/-!
## Induction on values
-/

/-- What holds of a value if it holds of all its parts holds of every value. -/
@[elab_as_elim]
theorem inductionOn {motive : Json -> Prop} (value : Json) (null : motive null)
    (bool : forall b, motive (bool b))
    (number : forall literal, motive (number literal))
    (string : forall units, motive (string units))
    (array : forall items, (forall item, item ∈ items -> motive item) ->
      motive (array items))
    (object : forall members,
      (forall member, member ∈ members -> motive member.snd) ->
      motive (object members)) : motive value := by
  match value with
  | .null => exact null
  | .bool b => exact bool b
  | .number literal => exact number literal
  | .string units => exact string units
  | .array items =>
      refine array items fun item hitem => ?_
      exact inductionOn item null bool number string array object
  | .object members =>
      refine object members fun member hmember => ?_
      exact inductionOn member.snd null bool number string array object
termination_by sizeOf value
decreasing_by
  · have hsize := List.sizeOf_lt_of_mem hitem
    rw [Json.array.sizeOf_spec]
    omega
  · have hsize := List.sizeOf_lt_of_mem hmember
    have hsnd : sizeOf member = 1 + sizeOf member.fst + sizeOf member.snd := rfl
    rw [Json.object.sizeOf_spec]
    omega

/-!
## Tokens of items and members
-/

def listed (items : List Json) : List JsonToken :=
  items.flatMap fun item => item.tokens ++ [.comma]

def assigned (members : List (List Nat × Json)) : List JsonToken :=
  members.flatMap fun (key, value) =>
    .string key :: .colon :: (value.tokens ++ [.comma])

theorem itemTokens_concat (items : List Json) (item : Json) :
    itemTokens (items ++ [item]) = listed items ++ item.tokens := by
  induction items with
  | nil => rfl
  | cons first items ih =>
      cases items with
      | nil => simp [itemTokens, listed]
      | cons second items =>
          simp only [List.cons_append] at ih ⊢
          rw [itemTokens, ih]
          · simp [listed]
          · simp

theorem memberTokens_concat (members : List (List Nat × Json)) (key : List Nat)
    (value : Json) :
    memberTokens (members ++ [(key, value)]) =
      assigned members ++ .string key :: .colon :: value.tokens := by
  induction members with
  | nil => rfl
  | cons first members ih =>
      cases members with
      | nil => simp [memberTokens, assigned]
      | cons second members =>
          simp only [List.cons_append] at ih ⊢
          rw [memberTokens, ih]
          · simp [assigned]
          · simp

end Json

namespace JsonReading

variable {reading after : JsonReading} {stack : List OpenJson}
  {token : JsonToken} {tokens : List JsonToken} {value : Json}

/-!
## What has been read
-/

/-- The tokens with which arrays and objects have been opened and filled. -/
def openTokens : List OpenJson -> List JsonToken
  | [] => []
  | .array items :: stack =>
      openTokens stack ++ .openArray :: Json.listed items.reverse
  | .object members key :: stack =>
      openTokens stack ++
        .openObject :: (Json.assigned members.reverse ++ [.string key, .colon])

def readTokens : JsonReading -> List JsonToken
  | .atValue stack => openTokens stack
  | .atItem stack => openTokens stack ++ [.openArray]
  | .atMember stack => openTokens stack ++ [.openObject]
  | .atKey members stack =>
      openTokens stack ++ .openObject :: Json.assigned members.reverse
  | .atColon members key stack =>
      openTokens stack ++
        .openObject :: (Json.assigned members.reverse ++ [.string key])
  | .afterValue value stack => openTokens stack ++ value.tokens

theorem readTokens_value? (h : value? stack token = some after) :
    after.readTokens = openTokens stack ++ [token] := by
  cases token <;> cases h <;> rfl

theorem readTokens_next? (h : reading.next? token = some after) :
    after.readTokens = reading.readTokens ++ [token] := by
  unfold next? at h
  split at h
  case h_1 => exact readTokens_value? h
  case h_3 =>
    rw [readTokens_value? h]
    rfl
  case h_12 => cases h
  all_goals
    cases h
    simp [readTokens, openTokens, Json.listed, Json.assigned, Json.tokens,
      Json.itemTokens, Json.memberTokens, Json.itemTokens_concat,
      Json.memberTokens_concat]

theorem tokens_of_run? (h : reading.run? tokens = some value) :
    value.tokens = reading.readTokens ++ tokens := by
  induction tokens generalizing reading with
  | nil =>
      unfold run? at h
      split at h
      · cases h
        simp [readTokens, openTokens]
      · cases h
      · contradiction
  | cons token tokens ih =>
      rw [run?] at h
      rcases Option.bind_eq_some_iff.mp h with ⟨after, hnext, hrun⟩
      rw [ih hrun, readTokens_next? hnext, List.append_assoc,
        List.singleton_append]

/-!
## Reading what is spelled
-/

theorem run?_cons (h : reading.next? token = some after) :
    reading.run? (token :: tokens) = after.run? tokens := by
  rw [run?, h]
  rfl

/-- A value that is read as a whole, whatever is open around it. -/
def ReadsBack (value : Json) : Prop :=
  forall stack rest, (atValue stack).run? (value.tokens ++ rest) =
    (afterValue value stack).run? rest

theorem run?_itemTokens {items : List Json} (hne : items ≠ [])
    (hitems : forall item, item ∈ items -> ReadsBack item) (before : List Json)
    (stack : List OpenJson) (rest : List JsonToken) :
    (atValue (.array before :: stack)).run?
      (Json.itemTokens items ++ .closeArray :: rest) =
      (afterValue (.array (before.reverse ++ items)) stack).run? rest := by
  induction items generalizing before with
  | nil => exact absurd rfl hne
  | cons item items ih =>
      rw [List.forall_mem_cons] at hitems
      cases items with
      | nil =>
          rw [Json.itemTokens, hitems.left, run?_cons rfl, List.reverse_cons]
      | cons next items =>
          rw [Json.itemTokens, List.append_assoc, hitems.left, List.cons_append,
            run?_cons rfl, ih (List.cons_ne_nil _ _) hitems.right,
            List.reverse_cons, List.append_assoc, List.singleton_append]
          simp

theorem run?_memberTokens {members : List (List Nat × Json)}
    (hne : members ≠ [])
    (hmembers : forall member, member ∈ members -> ReadsBack member.snd)
    (before : List (List Nat × Json)) (stack : List OpenJson)
    (rest : List JsonToken) :
    (atKey before stack).run?
      (Json.memberTokens members ++ .closeObject :: rest) =
      (afterValue (.object (before.reverse ++ members)) stack).run? rest := by
  induction members generalizing before with
  | nil => exact absurd rfl hne
  | cons member members ih =>
      rcases member with ⟨key, value⟩
      rw [List.forall_mem_cons] at hmembers
      cases members with
      | nil =>
          rw [Json.memberTokens, List.cons_append, run?_cons rfl,
            List.cons_append, run?_cons rfl, hmembers.left, run?_cons rfl,
            List.reverse_cons]
      | cons next members =>
          rw [Json.memberTokens, List.cons_append, run?_cons rfl,
            List.cons_append, run?_cons rfl, List.append_assoc, hmembers.left,
            List.cons_append, run?_cons rfl,
            ih (List.cons_ne_nil _ _) hmembers.right, List.reverse_cons,
            List.append_assoc, List.singleton_append]
          simp

theorem run?_atItem {item : Json} {items : List Json} :
    (atItem stack).run? (Json.itemTokens (item :: items) ++ tokens) =
      (atValue (.array [] :: stack)).run?
        (Json.itemTokens (item :: items) ++ tokens) := by
  have hfirst : exists rest,
      Json.itemTokens (item :: items) = item.tokens ++ rest := by
    cases items with
    | nil => exact ⟨[], by rw [Json.itemTokens, List.append_nil]⟩
    | cons next items => exact ⟨_, by rw [Json.itemTokens]; simp⟩
  rcases hfirst with ⟨rest, hrest⟩
  rw [hrest]
  cases item <;> rfl

theorem run?_atMember {member : List Nat × Json}
    {members : List (List Nat × Json)} :
    (atMember stack).run? (Json.memberTokens (member :: members) ++ tokens) =
      (atKey [] stack).run?
        (Json.memberTokens (member :: members) ++ tokens) := by
  cases members <;> rfl

theorem readsBack (value : Json) : ReadsBack value := by
  induction value using Json.inductionOn with
  | array items ih =>
      intro stack rest
      cases items with
      | nil => rfl
      | cons item items =>
          rw [Json.tokens, List.cons_append, List.append_assoc,
            run?_cons rfl, run?_atItem]
          exact run?_itemTokens (List.cons_ne_nil _ _) ih [] stack rest
  | object members ih =>
      intro stack rest
      cases members with
      | nil => rfl
      | cons member members =>
          rw [Json.tokens, List.cons_append, List.append_assoc, run?_cons rfl,
            run?_atMember]
          exact run?_memberTokens (List.cons_ne_nil _ _) ih [] stack rest
  | _ => exact fun _ _ => rfl

/-- The tokens of a value are read as the value, and no other tokens are. -/
theorem run?_start_eq_some_iff :
    start.run? tokens = some value <-> tokens = value.tokens := by
  constructor
  · intro h
    exact (tokens_of_run? h).symm
  · rintro rfl
    have hread := readsBack value [] []
    rwa [List.append_nil] at hread

/-!
## Texts
-/

theorem next?_number_of_afterValue {literal : List Char} :
    (afterValue value stack).next? (.number literal) = none := by
  unfold next?
  split <;> first | rfl | contradiction

theorem exists_of_next?_number {literal : List Char}
    (h : reading.next? (.number literal) = some after) :
    exists value stack, after = afterValue value stack := by
  cases reading with
  | afterValue value stack =>
      rw [next?_number_of_afterValue] at h
      cases h
  | _ => cases h <;> exact ⟨_, _, rfl⟩

theorem parted_of_run? (h : reading.run? tokens = some value) :
    tokens.IsChain JsonToken.Parted := by
  induction tokens generalizing reading with
  | nil => exact .nil
  | cons token tokens ih =>
      rw [run?] at h
      rcases Option.bind_eq_some_iff.mp h with ⟨after, hnext, hrun⟩
      cases tokens with
      | nil => exact .singleton _
      | cons next tokens =>
          refine List.isChain_cons_cons.mpr ⟨?_, ih hrun⟩
          rintro literal other rfl rfl
          rcases exists_of_next?_number hnext with ⟨value, stack, rfl⟩
          rw [run?, next?_number_of_afterValue] at hrun
          cases hrun

end JsonReading

/-- A text is read as a value exactly if it spells the value. -/
theorem Json.parse?_eq_some_iff {text : String} {value : Json} :
    Json.parse? text = some value <-> value.Spelled text := by
  unfold Json.parse? Json.Spelled
  rw [Option.bind_eq_some_iff]
  constructor
  · rintro ⟨tokens, hscan, hrun⟩
    rw [← JsonReading.run?_start_eq_some_iff.mp hrun]
    exact JsonToken.spelledAll_of_scanAll? hscan
  · intro h
    have hrun : JsonReading.start.run? value.tokens = some value :=
      JsonReading.run?_start_eq_some_iff.mpr rfl
    exact ⟨_,
      JsonToken.scanAll?_of_spelledAll h (JsonReading.parted_of_run? hrun),
      hrun⟩

end LineCalc
