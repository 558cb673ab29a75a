/-!
# UTF-16 code units

Escapes in JSON strings name UTF-16 code units.  A character outside the basic
plane is a high surrogate and a low one; a surrogate that has no partner belongs
to no text.
-/

namespace LineCalc

def units16 (c : Char) : List Nat :=
  if c.toNat < 0x10000 then
    [c.toNat]
  else
    [0xd800 + (c.toNat - 0x10000) / 0x400, 0xdc00 + (c.toNat - 0x10000) % 0x400]

def isHighSurrogate (unit : Nat) : Bool :=
  0xd800 ≤ unit && unit < 0xdc00

def isLowSurrogate (unit : Nat) : Bool :=
  0xdc00 ≤ unit && unit < 0xe000

/-- The text that code units encode, if every surrogate has its partner. -/
def decode16? : List Nat -> Option (List Char)
  | [] => some []
  | unit :: rest =>
      if isHighSurrogate unit then
        match rest with
        | low :: rest =>
            if isLowSurrogate low then
              let c :=
                Char.ofNat (0x10000 + (unit - 0xd800) * 0x400 + (low - 0xdc00))
              (decode16? rest).map (c :: ·)
            else
              none
        | [] => none
      else if isLowSurrogate unit then
        none
      else
        (decode16? rest).map (Char.ofNat unit :: ·)

end LineCalc
