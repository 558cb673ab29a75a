import LineCalc.Instruction.Decoding
import LineCalc.Instruction.Json
import LineCalc.Proofs.Binary64.Literals
import LineCalc.Proofs.Json.Reading
import LineCalc.Proofs.Json.Writing
import LineCalc.Proofs.Text.Units

/-!
# Programs in JSON texts

Each member of an instruction's object is read back as the operand that it was
written for, but for the numbers that are not finite, which share one text.  So
a program can be told from its text up to these numbers.
-/

namespace LineCalc

/-!
## Numbers that are not finite
-/

namespace Binary64

variable {x y : Binary64}

def finiteOrNaN (x : Binary64) : Binary64 :=
  if x.IsFinite then x else nan

theorem finiteOrNaN_eq_iff :
    x.finiteOrNaN = y.finiteOrNaN <-> x = y ∨ ¬ x.IsFinite ∧ ¬ y.IsFinite := by
  have hnan : ¬ nan.IsFinite := id
  by_cases hx : x.IsFinite <;> by_cases hy : y.IsFinite <;>
    simp only [finiteOrNaN, hx, hy, if_true, if_false] <;> grind

def json (x : Binary64) : Json :=
  if x.IsFinite then .number x.jsonChars else .null

theorem jsonText_of_not_isFinite (h : ¬ x.IsFinite) : x.jsonText = "null" := by
  cases x with
  | nan => rfl
  | signed negative m => rw [jsonText, jsonChars, if_pos (not_not.mp h)]

theorem jsonText_finiteOrNaN (x : Binary64) :
    x.finiteOrNaN.jsonText = x.jsonText := by
  by_cases h : x.IsFinite
  · rw [finiteOrNaN, if_pos h]
  · rw [finiteOrNaN, if_neg h, jsonText_of_not_isFinite h,
      jsonText_of_not_isFinite id]

theorem spelled_json (x : Binary64) : x.json.Spelled x.jsonText := by
  by_cases h : x.IsFinite
  · rw [json, if_pos h]
    exact Json.spelled_number (isNumber_jsonChars h)
  · rw [json, if_neg h, jsonText_of_not_isFinite h]
    exact JsonToken.Spelled.null.alone

theorem writes_json (x : Binary64) {key : String} (h : Unescaped key) :
    Json.Writes (key, x.json) (key, x.jsonText) :=
  ⟨rfl, h, x.spelled_json⟩

@[simp] theorem ofJson?_json (x : Binary64) :
    ofJson? x.json = some x.finiteOrNaN := by
  by_cases h : x.IsFinite
  · rw [json, finiteOrNaN, if_pos h, if_pos h]
    exact ofLiteral?_jsonChars h
  · rw [json, finiteOrNaN, if_neg h, if_neg h]
    rfl

end Binary64

namespace Operator

@[simp] theorem ofMnemonic?_mnemonic (op : Operator) :
    ofMnemonic? op.mnemonic = some op := by
  rcases op with op | op <;> cases op <;> decide

theorem unescaped_mnemonic (op : Operator) : Unescaped op.mnemonic := by
  rcases op with op | op <;> cases op <;> decide

end Operator

/-!
## Members
-/

namespace Json

variable {key other : String} {value : Json} {members : List (String × Json)}

@[simp] theorem text?_text (word : String) : (text word).text? = some word := by
  rw [text, text?, decode16?_flatMap_units16, Option.map_some,
    String.ofList_toList]

theorem members?_named (members : List (String × Json)) :
    (named members).members? = some members := by
  have hmembers : (named members).members? = some (members.map id) := by
    apply mapM_map_of_read
    rintro ⟨key, value⟩
    exact congrArg (Option.map fun key => (key, value)) (text?_text key)
  rwa [List.map_id] at hmembers

@[simp] theorem member?_cons_self :
    member? ((key, value) :: members) key = some value := by
  rw [member?, List.find?_cons_of_pos (by simp), Option.map_some]

@[simp] theorem member?_cons_of_ne (h : other ≠ key) :
    member? ((other, value) :: members) key = member? members key := by
  rw [member?, List.find?_cons_of_neg (by simpa using h), member?]

end Json

/-!
## Instructions
-/

namespace Instruction

def finiteOrNaN : Instruction -> Instruction
  | loadImmediate register value => loadImmediate register value.finiteOrNaN
  | storeImmediate address value => storeImmediate address value.finiteOrNaN
  | instruction => instruction

/-- Equal instructions, or such that differ in a constant alone, which is finite
in neither. -/
inductive Alike : Instruction -> Instruction -> Prop
  | same {instruction : Instruction} : Alike instruction instruction
  | loadImmediate {register : Nat} {x y : Binary64} :
      ¬ x.IsFinite ->
      ¬ y.IsFinite ->
      Alike (.loadImmediate register x) (.loadImmediate register y)
  | storeImmediate {address : Nat} {x y : Binary64} :
      ¬ x.IsFinite ->
      ¬ y.IsFinite ->
      Alike (.storeImmediate address x) (.storeImmediate address y)

theorem alike_iff {left right : Instruction} :
    Alike left right <-> left.finiteOrNaN = right.finiteOrNaN := by
  constructor
  · intro h
    cases h with
    | same => rfl
    | loadImmediate hx hy =>
        rw [finiteOrNaN, finiteOrNaN,
          Binary64.finiteOrNaN_eq_iff.mpr (.inr ⟨hx, hy⟩)]
    | storeImmediate hx hy =>
        rw [finiteOrNaN, finiteOrNaN,
          Binary64.finiteOrNaN_eq_iff.mpr (.inr ⟨hx, hy⟩)]
  · intro h
    cases left with
    | loadImmediate register x =>
        cases right with
        | loadImmediate other y =>
            injection h with hregister hvalue
            rw [hregister]
            rcases Binary64.finiteOrNaN_eq_iff.mp hvalue with rfl | ⟨hx, hy⟩
            · exact .same
            · exact .loadImmediate hx hy
        | _ => cases h
    | storeImmediate address x =>
        cases right with
        | storeImmediate other y =>
            injection h with haddress hvalue
            rw [haddress]
            rcases Binary64.finiteOrNaN_eq_iff.mp hvalue with rfl | ⟨hx, hy⟩
            · exact .same
            · exact .storeImmediate hx hy
        | _ => cases h
    | _ =>
        cases right <;> cases h
        exact .same

def members : Instruction -> List (String × Json)
  | loadImmediate register value =>
      [("kind", .text "load_imm"), ("reg", .natural register),
        ("value", value.json)]
  | load register address =>
      [("kind", .text "load"), ("reg", .natural register),
        ("addr", .natural address)]
  | store address register =>
      [("kind", .text "store"), ("addr", .natural address),
        ("reg", .natural register)]
  | storeImmediate address value =>
      [("kind", .text "store_imm"), ("addr", .natural address),
        ("value", value.json)]
  | move source target =>
      [("kind", .text "move"), ("src", .natural source),
        ("dst", .natural target)]
  | binary op left right target =>
      [("kind", .text "binary"), ("op", .text op.mnemonic),
        ("left", .natural left), ("right", .natural right),
        ("dest", .natural target)]
  | halt => [("kind", .text "halt")]

theorem ofJson?_members (instruction : Instruction) :
    ofJson? (.named instruction.members) = some instruction.finiteOrNaN := by
  rw [ofJson?, Json.members?_named]
  cases instruction <;> simp [members, ofMembers?, finiteOrNaN]

theorem writes_members (instruction : Instruction) :
    List.Forall₂ Json.Writes instruction.members instruction.jsonMembers := by
  have hkind : forall kind, Unescaped kind ->
      Json.Writes ("kind", .text kind) ("kind", jsonWord kind) :=
    fun _ => Json.writes_text (by decide)
  have hop : forall op : Operator,
      Json.Writes ("op", .text op.mnemonic) ("op", jsonWord op.mnemonic) :=
    fun op => Json.writes_text (by decide) op.unescaped_mnemonic
  cases instruction <;>
    simp (disch := decide) [members, jsonMembers, hkind, hop,
      Json.writes_natural, Binary64.writes_json]

theorem spelled_json (instruction : Instruction) :
    (Json.named instruction.members).Spelled instruction.json :=
  Json.spelled_named instruction.writes_members

theorem json_finiteOrNaN (instruction : Instruction) :
    instruction.finiteOrNaN.json = instruction.json := by
  cases instruction <;>
    simp only [finiteOrNaN, json, jsonMembers, Binary64.jsonText_finiteOrNaN]

end Instruction

/-!
## Programs
-/

theorem spelled_programJson (code : List Instruction) :
    (Json.array (code.map fun instruction => .named instruction.members)).Spelled
      (programJson code) := by
  apply Json.spelled_array
  rw [List.forall₂_map_left_iff, List.forall₂_map_right_iff, List.forall₂_same]
  exact fun instruction _ => instruction.spelled_json

theorem programOfJson?_programJson (code : List Instruction) :
    programOfJson? (programJson code) =
      some (code.map Instruction.finiteOrNaN) := by
  rw [programOfJson?, Json.parse?_eq_some_iff.mpr (spelled_programJson code)]
  exact mapM_map_of_read Instruction.ofJson?_members code

theorem programJson_finiteOrNaN (code : List Instruction) :
    programJson (code.map Instruction.finiteOrNaN) = programJson code := by
  rw [programJson, programJson, List.map_map]
  exact congrArg jsonArray
    (List.map_congr_left fun instruction _ => instruction.json_finiteOrNaN)

/-- A program is read back from its JSON text, with NaN for each constant that
is not finite.  So two programs have one text exactly if their instructions are
equal at each position, signs of zeros included, up to constants that are finite
in neither. -/
theorem programJson_tells_program :
    (forall code : List Instruction,
      programOfJson? (programJson code) =
        some (code.map Instruction.finiteOrNaN)) ∧
    forall left right : List Instruction,
      programJson left = programJson right <->
        List.Forall₂ Instruction.Alike left right := by
  refine ⟨programOfJson?_programJson, fun left right => ?_⟩
  have halike : List.Forall₂ Instruction.Alike left right <->
      left.map Instruction.finiteOrNaN = right.map Instruction.finiteOrNaN := by
    rw [← List.forall₂_eq_eq_eq, List.forall₂_map_left_iff,
      List.forall₂_map_right_iff]
    exact ⟨fun h => h.imp fun _ _ => Instruction.alike_iff.mp,
      fun h => h.imp fun _ _ => Instruction.alike_iff.mpr⟩
  rw [halike]
  constructor
  · intro h
    have hcode := programOfJson?_programJson left
    rw [h, programOfJson?_programJson right] at hcode
    exact (Option.some.inj hcode).symm
  · intro h
    rw [← programJson_finiteOrNaN left, h, programJson_finiteOrNaN]

/-- A zero keeps its sign, and an infinite number has no number in JSON. -/
example :
    programJson
        [.loadImmediate 1 (.signed true .zero),
          .storeImmediate 2 (.signed true .infinity)] =
      "[\x7b\"kind\":\"load_imm\",\"reg\":1,\"value\":-0.0\x7d," ++
        "\x7b\"kind\":\"store_imm\",\"addr\":2,\"value\":null\x7d]" := by
  decide +kernel

end LineCalc
