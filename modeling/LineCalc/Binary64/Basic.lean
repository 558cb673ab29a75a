/-!
# Binary64 numbers

The numbers of the calculator are the doubles of IEEE 754, with all NaNs taken
as one.  A number that is not NaN is a sign and a magnitude, and a magnitude is
known by its rank: zero has rank 0, the smallest subnormal rank 1, and so on up
to infinity.  The rank is the low 63 bits of the usual encoding, so the order of
ranks is the order of magnitudes, and equality of numbers is equality of bits.
-/

namespace LineCalc

/-- How many magnitudes there are from a power of two up to the next: one for
each value of the 52 fraction bits. -/
def binadeSize : Nat := 0x10000000000000

/-- The rank of infinity: an exponent field of 2047 above the fraction bits. -/
def infiniteRank : Nat := 0x7ff0000000000000

/-- The sign bit of the encoding. -/
def signBit : Nat := 0x8000000000000000

/-- The absolute value of a number, known by its rank in increasing order. -/
structure Magnitude where
  rank : Nat
  rank_le : rank ≤ infiniteRank
deriving DecidableEq, Repr

namespace Magnitude

@[ext] theorem ext {a b : Magnitude} (h : a.rank = b.rank) : a = b := by
  cases a
  cases b
  simp_all

/-- The magnitude of the given rank, or infinity for a rank that is too high. -/
def ofRank (rank : Nat) : Magnitude :=
  ⟨min rank infiniteRank, Nat.min_le_right ..⟩

@[simp] theorem rank_ofRank (rank : Nat) :
    (ofRank rank).rank = min rank infiniteRank :=
  rfl

@[simp] theorem ofRank_rank (m : Magnitude) : ofRank m.rank = m :=
  ext (Nat.min_eq_left m.rank_le)

def zero : Magnitude := ofRank 0

def infinity : Magnitude := ofRank infiniteRank

/-- The binary exponent of the last bit of the significand, counted from
`2 ^ (-1074)`; subnormal magnitudes share the exponent 0. -/
def exponent (m : Magnitude) : Nat :=
  m.rank / binadeSize - 1

/-- The 53-bit significand, hidden bit included. -/
def significand (m : Magnitude) : Nat :=
  m.rank - m.exponent * binadeSize

/-- The magnitude as a count of units of `2 ^ (-1074)`, the smallest subnormal.
Infinity counts as `2 ^ 1024`, where the next finite magnitude would lie. -/
def units (m : Magnitude) : Nat :=
  m.significand <<< m.exponent

end Magnitude

/-- A double: NaN, or a sign with a magnitude. -/
inductive Binary64
  | nan
  | signed (negative : Bool) (magnitude : Magnitude)
deriving DecidableEq, Repr

namespace Binary64

/-- The number that a 64-bit word encodes: the sign bit above the rank.  Every
word above infinity's is a NaN. -/
def ofBits (bits : UInt64) : Binary64 :=
  let rank := bits.toNat % signBit
  if h : rank ≤ infiniteRank then
    signed (signBit ≤ bits.toNat) ⟨rank, h⟩
  else
    nan

/-- The 64-bit encoding; NaN is encoded as the quiet NaN without payload. -/
def toBits : Binary64 -> UInt64
  | nan => 0x7ff8000000000000
  | signed negative m =>
      UInt64.ofNat ((if negative then signBit else 0) + m.rank)

def neg : Binary64 -> Binary64
  | nan => nan
  | signed negative m => signed (!negative) m

end Binary64

end LineCalc
