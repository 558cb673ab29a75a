import LineCalc.Config.Basic
import LineCalc.Json.Spelling

/-!
# Settings in objects

Which settings the members of an object give, and when they give none.
-/

namespace LineCalc

namespace Config

def keys : List String :=
  ["heap_base", "stack_top", "max_depth"]

/-- What the members of an object say about a setting: nothing, or a plain
integer of 64 bits once. -/
inductive Sets (members : List (String × Json)) (key : String)
    (standard : Nat) : Nat -> Prop
  | absent :
      (forall value, (key, value) ∉ members) ->
      Sets members key standard standard
  | once {before after : List (String × Json)} {n : Nat} :
      members = before ++ (key, .natural n) :: after ->
      (forall value, (key, value) ∉ before ++ after) ->
      n < UInt64.size ->
      Sets members key standard n

/-- The configuration that the members of an object give. -/
structure GivenBy (members : List (String × Json))
    (config : Config) : Prop where
  heapBase : Sets members "heap_base" standard.heapBase config.heapBase
  stackTop : Sets members "stack_top" standard.stackTop config.stackTop
  maxDepth : Sets members "max_depth" standard.maxDepth config.maxDepth

/-- The values that no setting can have: numbers with a minus sign, a fraction
or an exponent, integers that need more than 64 bits, and whatever is no
number. -/
inductive Unfit : Json -> Prop
  | negative {literal : List Char} :
      literal.head? = some '-' ->
      Unfit (.number literal)
  | fraction {literal : List Char} :
      '.' ∈ literal ->
      Unfit (.number literal)
  | exponent {literal : List Char} :
      'e' ∈ literal ∨ 'E' ∈ literal ->
      Unfit (.number literal)
  | large {n : Nat} :
      UInt64.size ≤ n ->
      Unfit (.natural n)
  | other {value : Json} :
      (forall literal, value ≠ .number literal) ->
      Unfit value

/-- Members that give no setting for a key: there are two of them, or one has an
unfit value. -/
inductive Spoils (members : List (List Nat × Json)) (key : String) : Prop
  | twice {first second : Json} :
      List.Sublist [(key.toList.flatMap units16, first),
        (key.toList.flatMap units16, second)]
        members ->
      Spoils members key
  | unfit {value : Json} :
      (key.toList.flatMap units16, value) ∈ members ->
      Unfit value ->
      Spoils members key

/-- Settings are integers of 64 bits. -/
structure IsWords (config : Config) : Prop where
  heapBase : config.heapBase < UInt64.size
  stackTop : config.stackTop < UInt64.size
  maxDepth : config.maxDepth < UInt64.size

end Config

end LineCalc
