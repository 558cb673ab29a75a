import LineCalc.Config.Json
import LineCalc.Config.Settings
import LineCalc.Proofs.Json.Reading
import LineCalc.Proofs.Json.Writing
import LineCalc.Proofs.Text.Units
import Mathlib.Data.Option.Basic

/-!
# Configurations in JSON texts

A text is read as the value that it spells, and what a value says about the
settings depends neither on the order of its members nor on what is written for
other keys.  So a configuration is read back from its own text and from every
other layout of it.
-/

namespace LineCalc

namespace Config

variable {config : Config} {key : String} {standard n : Nat} {value : Json}
  {members : List (String × Json)}

/-!
## Values of settings
-/

theorem setting?_natural :
    setting? (.natural n) = if n < UInt64.size then some n else none := by
  rw [setting?, Json.natural?_natural, Option.filter_some]
  exact if_congr decide_eq_true_iff rfl rfl

theorem natural?_eq_none {literal : List Char} {c : Char} (hc : c ∈ literal)
    (hdigit : c.isDigit = false) : (Json.number literal).natural? = none := by
  rw [Json.natural?, if_neg]
  intro hall
  rw [List.all_eq_true.mp hall c hc] at hdigit
  cases hdigit

theorem setting?_eq_none_of_unfit (h : Unfit value) :
    setting? value = none := by
  cases h with
  | negative hhead =>
      rw [setting?, natural?_eq_none (List.mem_of_head? hhead) rfl,
        Option.filter_none]
  | fraction hpoint =>
      rw [setting?, natural?_eq_none hpoint rfl, Option.filter_none]
  | exponent hmark =>
      rcases hmark with hmark | hmark <;>
        rw [setting?, natural?_eq_none hmark rfl, Option.filter_none]
  | large hlarge => rw [setting?_natural, if_neg (Nat.not_lt.mpr hlarge)]
  | other hnumber =>
      cases value with
      | number literal => exact absurd rfl (hnumber literal)
      | _ => rfl

/-!
## Members
-/

def decodeMember? : List Nat × Json -> Option (List Char × Json)
  | (key, value) => (decode16? key).map (·, value)

def ofDecoded? (members : List (List Char × Json)) : Option Config :=
  (member? members "heap_base" Config.standard.heapBase).bind fun heapBase =>
    (member? members "stack_top" Config.standard.stackTop).bind fun stackTop =>
      (member? members "max_depth" Config.standard.maxDepth).map fun maxDepth =>
        ⟨heapBase, stackTop, maxDepth⟩

theorem ofMembers?_eq (members : List (List Nat × Json)) :
    ofMembers? members = (members.mapM decodeMember?).bind ofDecoded? := by
  have hdecode : (fun (key, value) => (decode16? key).map (·, value)) =
      decodeMember? := rfl
  unfold ofMembers?
  rw [hdecode]
  cases members.mapM decodeMember? with
  | none => rfl
  | some decoded =>
      simp only [Option.bind_eq_bind, Option.bind_some,
        Option.pure_def, ofDecoded?, Option.map_eq_bind, Function.comp_def]

theorem ofDecoded?_eq_some_iff {decoded : List (List Char × Json)} :
    ofDecoded? decoded = some config <->
      member? decoded "heap_base" Config.standard.heapBase =
          some config.heapBase ∧
        member? decoded "stack_top" Config.standard.stackTop =
          some config.stackTop ∧
        member? decoded "max_depth" Config.standard.maxDepth =
          some config.maxDepth := by
  simp only [ofDecoded?, Option.bind_eq_some_iff, Option.map_eq_some_iff]
  constructor
  · rintro ⟨heapBase, hheap, stackTop, hstack, maxDepth, hdepth, rfl⟩
    exact ⟨hheap, hstack, hdepth⟩
  · rintro ⟨hheap, hstack, hdepth⟩
    exact ⟨_, hheap, _, hstack, _, hdepth, rfl⟩

def withChars (members : List (String × Json)) : List (List Char × Json) :=
  members.map fun (key, value) => (key.toList, value)

theorem mapM_decodeMember?_named (members : List (String × Json)) :
    (members.map fun (key, value) => (key.toList.flatMap units16, value)).mapM
      decodeMember? =
      some (withChars members) := by
  apply mapM_map_of_read
  intro member
  rw [decodeMember?, decode16?_flatMap_units16, Option.map_some]

theorem filter_withChars_eq_nil (h : forall value, (key, value) ∉ members) :
    (withChars members).filter (·.1 = key.toList) = [] := by
  rw [withChars, List.filter_map, List.map_eq_nil_iff, List.filter_eq_nil_iff]
  rintro ⟨other, value⟩ hmem hkey
  rw [Function.comp_apply, decide_eq_true_eq, String.toList_inj] at hkey
  rw [hkey] at hmem
  exact h value hmem

theorem member?_of_sets (h : Sets members key standard n) :
    member? (withChars members) key standard = some n := by
  cases h with
  | absent habsent => rw [member?, filter_withChars_eq_nil habsent]
  | @once before after n hmembers hothers hn =>
      have hbefore := @filter_withChars_eq_nil key before fun value hmem =>
        hothers value (List.mem_append_left _ hmem)
      have hafter := @filter_withChars_eq_nil key after fun value hmem =>
        hothers value (List.mem_append_right _ hmem)
      have hfilter : (withChars members).filter (·.1 = key.toList) =
          [(key.toList, .natural n)] := by
        rw [hmembers, withChars, List.map_append, List.map_cons,
          List.filter_append, ← withChars, ← withChars, hbefore,
          List.filter_cons_of_pos (by simp), hafter]
        rfl
      rw [member?, hfilter]
      simp only [setting?_natural, if_pos hn]

section Decoded

variable {decoded : List (List Char × Json)}

theorem member?_eq_none_of_two
    (h : 2 ≤ (decoded.filter (·.1 = key.toList)).length) :
    member? decoded key standard = none := by
  unfold member?
  split
  · rename_i hnil
    rw [hnil] at h
    contradiction
  · rename_i hone
    rw [hone] at h
    contradiction
  · rfl

theorem member?_eq_none_of_unfit (hmem : (key.toList, value) ∈ decoded)
    (h : Unfit value) :
    member? decoded key standard = none := by
  have hfilter : (key.toList, value) ∈ decoded.filter (·.1 = key.toList) :=
    List.mem_filter.mpr ⟨hmem, decide_eq_true rfl⟩
  unfold member?
  split
  · rename_i hnil
    rw [hnil] at hfilter
    cases hfilter
  · rename_i hone
    rw [hone] at hfilter
    cases List.mem_singleton.mp hfilter
    exact setting?_eq_none_of_unfit h
  · rfl

theorem map_decodeMember?_eq {members : List (List Nat × Json)}
    (h : members.mapM decodeMember? = some decoded) :
    members.map decodeMember? = decoded.map some := by
  induction members generalizing decoded with
  | nil =>
      cases h
      rfl
  | cons member members ih =>
      rw [List.mapM_cons] at h
      rcases Option.bind_eq_some_iff.mp h with ⟨first, hfirst, h⟩
      rcases Option.bind_eq_some_iff.mp h with ⟨others, hothers, h⟩
      cases h
      rw [List.map_cons, List.map_cons, hfirst, ih hothers]

theorem decodeMember?_key :
    decodeMember? (key.toList.flatMap units16, value) =
      some (key.toList, value) := by
  rw [decodeMember?, decode16?_flatMap_units16]
  rfl

theorem member?_eq_none_of_spoils {members : List (List Nat × Json)}
    (hdecoded : members.mapM decodeMember? = some decoded)
    (h : Spoils members key) :
    member? decoded key standard = none := by
  have hmap := map_decodeMember?_eq hdecoded
  cases h with
  | @twice first second hsublist =>
      have himage := hsublist.map decodeMember?
      rw [hmap, List.map_cons, List.map_singleton, decodeMember?_key,
        decodeMember?_key] at himage
      rcases List.sublist_map_iff.mp himage with ⟨both, hboth, heq⟩
      have hpair : both = [(key.toList, first), (key.toList, second)] :=
        List.map_injective_iff.mpr (Option.some_injective _) heq.symm
      rw [hpair] at hboth
      have hlength := (hboth.filter (·.1 = key.toList)).length_le
      exact member?_eq_none_of_two (by simpa using hlength)
  | @unfit value hmem hvalue =>
      have himage := List.mem_map_of_mem (f := decodeMember?) hmem
      rw [hmap, decodeMember?_key] at himage
      rcases List.mem_map.mp himage with ⟨_, hmem, heq⟩
      cases heq
      exact member?_eq_none_of_unfit hmem hvalue

end Decoded

theorem ofMembers?_eq_none_of_spoils {members : List (List Nat × Json)}
    (hkey : key ∈ keys) (h : Spoils members key) :
    ofMembers? members = none := by
  rw [ofMembers?_eq, Option.bind_eq_none_iff]
  intro decoded hdecoded
  have hmember : forall standard, member? decoded key standard = none :=
    fun _ => member?_eq_none_of_spoils hdecoded h
  rw [Option.eq_none_iff_forall_ne_some]
  intro config hconfig
  rcases ofDecoded?_eq_some_iff.mp hconfig with ⟨hheap, hstack, hdepth⟩
  simp only [keys, List.mem_cons, List.not_mem_nil, or_false] at hkey
  rcases hkey with rfl | rfl | rfl
  · cases hheap.symm.trans (hmember _)
  · cases hstack.symm.trans (hmember _)
  · cases hdepth.symm.trans (hmember _)

/-!
## Objects and arrays
-/

theorem ofJson?_named (members : List (String × Json)) :
    ofJson? (.named members) = ofDecoded? (withChars members) := by
  rw [Json.named, ofJson?, ofMembers?_eq, mapM_decodeMember?_named,
    Option.bind_some]

/-- The members of an object give the configuration that is read from it. -/
theorem ofJson?_of_givenBy (h : GivenBy members config) :
    ofJson? (.named members) = some config := by
  rw [ofJson?_named, ofDecoded?_eq_some_iff]
  exact ⟨member?_of_sets h.heapBase, member?_of_sets h.stackTop,
    member?_of_sets h.maxDepth⟩

theorem ofJson?_array {items : List Json} (h : items.length ≤ 3) :
    ofJson? (.array items) = ofJson? (.named (keys.zip items)) := by
  rw [ofJson?_named, ofJson?]
  match items with
  | [] => rfl
  | [_] | [_, _] | [_, _, _] =>
      simp [ofItems?, ofDecoded?, member?, withChars, keys, Option.map_eq_bind,
        Option.bind_assoc]
  | _ :: _ :: _ :: _ :: _ =>
      simp only [List.length_cons] at h
      omega

theorem exists_mapM_setting? {items : List Json}
    (h : forall item, item ∈ items ->
      exists n, n < UInt64.size ∧ item = .natural n) :
    exists settings, items.mapM setting? = some settings ∧
      settings.length = items.length := by
  induction items with
  | nil => exact ⟨[], rfl, rfl⟩
  | cons item items ih =>
      rw [List.forall_mem_cons] at h
      rcases h.left with ⟨n, hn, rfl⟩
      rcases ih h.right with ⟨settings, hrest, hlength⟩
      refine ⟨n :: settings, ?_,
        by rw [List.length_cons, List.length_cons, hlength]⟩
      rw [List.mapM_cons, setting?_natural, if_pos hn, hrest]
      rfl

theorem isSome_ofJson?_array {items : List Json} (h : items.length ≤ 3)
    (hitems : forall item, item ∈ items ->
      exists n, n < UInt64.size ∧ item = .natural n) :
    (ofJson? (.array items)).isSome = true := by
  rcases exists_mapM_setting? hitems with ⟨settings, hsettings, hlength⟩
  rw [ofJson?, ofItems?, hsettings]
  simp [hlength, h]

/-!
## Texts
-/

section Texts

variable {text : String}

theorem parse?_of_spelled (h : value.Spelled text) :
    parse? text = ofJson? value := by
  rw [parse?, Json.parse?_eq_some_iff.mpr h, Option.bind_some]

theorem parse?_eq_none_of_not_spelled
    (h : forall value : Json, ¬ value.Spelled text) :
    parse? text = none := by
  rw [parse?, Option.bind_eq_none_iff]
  intro value hvalue
  exact absurd (Json.parse?_eq_some_iff.mp hvalue) (h value)

end Texts

def settings (config : Config) : List (String × Json) :=
  [("heap_base", .natural config.heapBase),
    ("stack_top", .natural config.stackTop),
    ("max_depth", .natural config.maxDepth)]

theorem spelled_json (config : Config) :
    (Json.named config.settings).Spelled config.json := by
  exact Json.spelled_named (.cons (Json.writes_natural (by decide))
    (.cons (Json.writes_natural (by decide))
      (.cons (Json.writes_natural (by decide)) .nil)))

theorem givenBy_settings (h : config.IsWords) :
    GivenBy config.settings config := by
  constructor
  case heapBase =>
    exact @Sets.once _ _ _ [] _ _ rfl (by simp) h.heapBase
  case stackTop =>
    exact @Sets.once _ _ _ [("heap_base", .natural config.heapBase)] _ _ rfl
      (by simp) h.stackTop
  case maxDepth =>
    exact @Sets.once _ _ _ [("heap_base", .natural config.heapBase),
      ("stack_top", .natural config.stackTop)] _ _ rfl (by simp) h.maxDepth

/-- A configuration is read back from its own text.  It is read from every text
of an object that gives its settings, in whatever order and between whatever
other members and blanks, and nothing is read from one that gives a setting
twice or as anything but a plain integer of 64 bits, nor from a text that is not
one JSON value.  Up to three items of an array are read as if they stood behind
the keys. -/
theorem parse?_ignores_layout :
    (forall config : Config, config.IsWords ->
      parse? config.json = some config) ∧
    (forall (text : String) (members : List (String × Json)) (config : Config),
      (Json.named members).Spelled text -> GivenBy members config ->
      parse? text = some config) ∧
    (forall (text : String) (members : List (List Nat × Json)) (key : String),
      (Json.object members).Spelled text -> key ∈ keys -> Spoils members key ->
      parse? text = none) ∧
    (forall text : String, (forall value : Json, ¬ value.Spelled text) ->
      parse? text = none) ∧
    forall (text other : String) (items : List Json), items.length ≤ 3 ->
      (Json.array items).Spelled text ->
      (Json.named (keys.zip items)).Spelled other ->
      parse? text = parse? other ∧
        ((forall item, item ∈ items -> exists n, n < UInt64.size ∧
          item = .natural n) ->
          (parse? text).isSome) := by
  refine ⟨?_, ?_, ?_, fun _ => parse?_eq_none_of_not_spelled, ?_⟩
  · intro config h
    rw [parse?_of_spelled config.spelled_json,
      ofJson?_of_givenBy (givenBy_settings h)]
  · intro text members config htext h
    rw [parse?_of_spelled htext, ofJson?_of_givenBy h]
  · intro text members key htext hkey h
    rw [parse?_of_spelled htext]
    exact ofMembers?_eq_none_of_spoils hkey h
  · intro text other items hlength htext hother
    rw [parse?_of_spelled htext, parse?_of_spelled hother]
    exact ⟨ofJson?_array hlength, isSome_ofJson?_array hlength⟩

def nestedLayout : String :=
  "\x7b \"note\" : [1e999, \x7b\"\\ud800\":null\x7d],\n\"max\\u005fdepth\" : 8 \x7d"

theorem parse?_of_nested_layout :
    (exists members, (Json.named members).Spelled nestedLayout ∧
      GivenBy members ⟨1000, 1000000000, 8⟩) ∧
      parse? nestedLayout = some ⟨1000, 1000000000, 8⟩ := by
  let members : List (String × Json) :=
    [("note", .array [.number ['1', 'e', '9', '9', '9'],
      .object [([0xd800], .null)]]), ("max_depth", .natural 8)]
  have hscan : JsonToken.scanAll? nestedLayout.toList =
      some (Json.named members).tokens := by
    decide +kernel
  have htext : (Json.named members).Spelled nestedLayout := by
    rw [← Json.parse?_eq_some_iff, Json.parse?, hscan]
    rfl
  have hgiven : GivenBy members ⟨1000, 1000000000, 8⟩ := by
    constructor
    case heapBase => exact .absent (by simp [members])
    case stackTop => exact .absent (by simp [members])
    case maxDepth =>
      exact @Sets.once _ _ _ [members[0]] _ _ rfl
        (by simp [members]) (by decide)
  exact ⟨⟨members, htext, hgiven⟩,
    parse?_ignores_layout.right.left _ _ _ htext hgiven⟩

end Config

end LineCalc
