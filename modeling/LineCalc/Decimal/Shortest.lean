import LineCalc.Decimal.Basic

/-!
# Shortest decimals

The shortest decimal of a magnitude is the one of fewest digits that reads back
as the magnitude.  Decimals of `n` digits lie on a grid, and a grid has a point
that reads back only if one of the two neighbours of the magnitude on it does,
so it is enough to try these, from one digit up to seventeen.  Of two neighbours
that read back the nearer is taken.

The shortest decimal does read back (`magnitude_shortest`).
-/

namespace LineCalc

namespace Magnitude

/-- The power of ten of the leading decimal digit of a magnitude that is not
zero: no magnitude is below `10 ^ (-324)`, so scaling by `10 ^ 324` leaves a
natural number with as many digits. -/
def leadingExponent (m : Magnitude) : Int :=
  (Nat.toDigits 10 (m.units * powerOfTen 324 / unitsPerOne)).length - 325

/-- A decimal on the grid of multiples of `10 ^ exponent` that reads back as
`m`: the point nearest to `m`, or else the neighbour on its other side. -/
def onGrid? (tie : TieRule) (m : Magnitude) (exponent : Int) : Option Decimal :=
  let num := m.units * powerOfTen (-exponent).toNat
  let den := unitsPerOne * powerOfTen exponent.toNat
  let below := num / den
  ([tie.round num den, below, below + 1].map (Decimal.mk · exponent)).find?
    (·.magnitude = m)

/-- The exact value of `m`: a unit of `n` places is `5 ^ n` times
`10 ^ (-n)`. -/
def exactDecimal (m : Magnitude) : Decimal :=
  ⟨m.units * Nat.pow 5 unitPlaces, -(unitPlaces : Int)⟩

/-- The decimal of fewest digits that reads back as `m`.  Were seventeen digits
not enough, it would be the exact value. -/
def shortest (tie : TieRule) (m : Magnitude) : Decimal :=
  let leading := m.leadingExponent
  let tried := (List.range 17).findSome? fun (places : Nat) =>
    m.onGrid? tie (leading - places)
  let decimal := tried.getD m.exactDecimal
  .normal decimal.significand decimal.exponent

theorem magnitude_of_onGrid? {tie : TieRule} {m : Magnitude}
    {exponent : Int} {d : Decimal} (h : m.onGrid? tie exponent = some d) :
    d.magnitude = m := by
  simpa using List.find?_some h

theorem nearest_scaled (count places : Nat) :
    nearest (count * Nat.pow 5 places * (1 <<< places)) (powerOfTen places) =
      nearest count 1 := by
  have hpower : powerOfTen places = Nat.pow 5 places * (1 <<< places) := by
    rw [powerOfTen, Nat.shiftLeft_eq, Nat.one_mul]
    exact Nat.mul_pow 5 2 places
  rw [Nat.mul_assoc, ← hpower, Nat.mul_comm]
  conv => lhs; arg 2; rw [← Nat.mul_one (powerOfTen places)]
  exact nearest_mul_left (powerOfTen_pos _) count 1

theorem magnitude_exactDecimal (m : Magnitude) :
    m.exactDecimal.magnitude = m := by
  have hup : (-(unitPlaces : Int)).toNat = 0 := by omega
  have hdown : (-(-(unitPlaces : Int))).toNat = unitPlaces := by omega
  unfold exactDecimal Decimal.magnitude unitsPerOne
  rw [hup, hdown, powerOfTen_zero, Nat.mul_one]
  exact (nearest_scaled m.units unitPlaces).trans m.nearest_units

theorem magnitude_shortest (tie : TieRule) (m : Magnitude) :
    (m.shortest tie).magnitude = m := by
  simp only [shortest, Decimal.magnitude_normal]
  cases h : (List.range 17).findSome? fun (places : Nat) =>
      m.onGrid? tie (m.leadingExponent - places) with
  | some d =>
      rcases List.exists_of_findSome?_eq_some h with ⟨places, _, hfound⟩
      exact magnitude_of_onGrid? hfound
  | none => exact m.magnitude_exactDecimal

end Magnitude

end LineCalc
