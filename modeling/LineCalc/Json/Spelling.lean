import LineCalc.Json.Basic
import LineCalc.Json.Token

/-!
# How JSON is spelled

The tokens of a value are the tokens of its parts with brackets and commas
around them.  A text spells the value if it consists of spellings of these
tokens, in their order, and of blanks anywhere between them.
-/

namespace LineCalc

namespace JsonToken

/-!
## Numbers
-/

/-- A run of at least one digit. -/
def IsDigits (text : List Char) : Prop :=
  text ≠ [] ∧ forall c, c ∈ text -> c.isDigit

/-- The part of a number in front of any point.  No zero leads other digits. -/
inductive IsWhole : List Char -> Prop
  | zero : IsWhole ['0']
  | digits {first : Char} {others : List Char} :
      first ≠ '0' ->
      IsDigits (first :: others) ->
      IsWhole (first :: others)

/-- The point and the digits behind it, if there is a point. -/
inductive IsFraction : List Char -> Prop
  | none : IsFraction []
  | point {digits : List Char} :
      IsDigits digits ->
      IsFraction ('.' :: digits)

/-- The power of ten, if there is one. -/
inductive IsExponent : List Char -> Prop
  | none : IsExponent []
  | power {mark : Char} {sign digits : List Char} :
      mark ∈ ['e', 'E'] ->
      sign ∈ [[], ['+'], ['-']] ->
      IsDigits digits ->
      IsExponent (mark :: (sign ++ digits))

inductive IsNumber : List Char -> Prop
  | parts {sign whole fraction exponent : List Char} :
      sign ∈ [[], ['-']] ->
      IsWhole whole ->
      IsFraction fraction ->
      IsExponent exponent ->
      IsNumber (sign ++ whole ++ fraction ++ exponent)

/-!
## Strings
-/

/-- The characters that stand for a code unit behind a backslash. -/
def shortEscapes : List (Char × Nat) :=
  [('"', 0x22), ('\\', 0x5c), ('/', 0x2f), ('b', 0x08), ('f', 0x0c),
    ('n', 0x0a), ('r', 0x0d), ('t', 0x09)]

/-- A hexadecimal digit, small or capital, and its value. -/
def IsHexDigit (c : Char) (value : Nat) : Prop :=
  value < 16 ∧ (c = value.digitChar ∨ c = value.digitChar.toUpper)

/-- What stands between the quotes of a string, and the code units that it
stands for. -/
inductive IsBody : List Nat -> List Char -> Prop
  | nil : IsBody [] []
  | plain {c : Char} {units : List Nat} {body : List Char} :
      0x20 ≤ c.toNat ->
      c ≠ '"' ->
      c ≠ '\\' ->
      IsBody units body ->
      IsBody (units16 c ++ units) (c :: body)
  | short {c : Char} {unit : Nat} {units : List Nat} {body : List Char} :
      (c, unit) ∈ shortEscapes ->
      IsBody units body ->
      IsBody (unit :: units) ('\\' :: c :: body)
  | hexadecimal {a b c d : Char} {i j k l : Nat} {units : List Nat}
      {body : List Char} :
      IsHexDigit a i ->
      IsHexDigit b j ->
      IsHexDigit c k ->
      IsHexDigit d l ->
      IsBody units body ->
      IsBody ((((i * 16 + j) * 16 + k) * 16 + l) :: units)
        ('\\' :: 'u' :: a :: b :: c :: d :: body)

/-!
## Texts
-/

inductive Spelled : JsonToken -> List Char -> Prop
  | openObject : Spelled .openObject ['\x7b']
  | closeObject : Spelled .closeObject ['\x7d']
  | openArray : Spelled .openArray ['[']
  | closeArray : Spelled .closeArray [']']
  | comma : Spelled .comma [',']
  | colon : Spelled .colon [':']
  | null : Spelled .null ['n', 'u', 'l', 'l']
  | trueWord : Spelled (.bool true) ['t', 'r', 'u', 'e']
  | falseWord : Spelled (.bool false) ['f', 'a', 'l', 's', 'e']
  | number {literal : List Char} :
      IsNumber literal ->
      Spelled (.number literal) literal
  | string {units : List Nat} {body : List Char} :
      IsBody units body ->
      Spelled (.string units) ('"' :: (body ++ ['"']))

/-- The characters that may stand between tokens. -/
def IsBlanks (text : List Char) : Prop :=
  forall c, c ∈ text -> c ∈ [' ', '\t', '\n', '\r']

/-- Tokens in a row, with blanks around them. -/
inductive SpelledAll : List JsonToken -> List Char -> Prop
  | nil {blanks : List Char} :
      IsBlanks blanks ->
      SpelledAll [] blanks
  | cons {token : JsonToken} {tokens : List JsonToken}
      {blanks word text : List Char} :
      IsBlanks blanks ->
      Spelled token word ->
      SpelledAll tokens text ->
      SpelledAll (token :: tokens) (blanks ++ (word ++ text))

end JsonToken

namespace Json

/-!
## Values
-/

mutual

/-- The tokens of a value. -/
def tokens : Json -> List JsonToken
  | null => [.null]
  | bool value => [.bool value]
  | number literal => [.number literal]
  | string units => [.string units]
  | array items => .openArray :: (itemTokens items ++ [.closeArray])
  | object members => .openObject :: (memberTokens members ++ [.closeObject])

/-- The tokens of items, with commas between these. -/
def itemTokens : List Json -> List JsonToken
  | [] => []
  | [item] => item.tokens
  | item :: items => item.tokens ++ .comma :: itemTokens items

/-- The tokens of members, with commas between these. -/
def memberTokens : List (List Nat × Json) -> List JsonToken
  | [] => []
  | [(key, value)] => .string key :: .colon :: value.tokens
  | (key, value) :: members =>
      .string key :: .colon :: (value.tokens ++ .comma :: memberTokens members)

end

/-- A text that is one complete JSON value. -/
def Spelled (value : Json) (text : String) : Prop :=
  JsonToken.SpelledAll value.tokens text.toList

/-- A plain integer. -/
def natural (n : Nat) : Json :=
  number (Nat.toDigits 10 n)

/-- A string without lone surrogates. -/
def text (word : String) : Json :=
  string (word.toList.flatMap units16)

/-- An object the keys of which are texts. -/
def named (members : List (String × Json)) : Json :=
  object (members.map fun (key, value) => (key.toList.flatMap units16, value))

end Json

end LineCalc
