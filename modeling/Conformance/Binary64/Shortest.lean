import Conformance.Binary64

/-!
# Shortest decimal digits of a double

The decimals that read back as a given positive double fill an interval
around it, with the ends included exactly when the mantissa is even. Among
them the fewest digits win, and of several with that many digits the one
nearest to the value, a tie going to the even last digit.
-/

namespace Conformance.Binary64

/-- A decimal `digits * 10 ^ exponent`. -/
structure Digits where
  /-- The significant digits, read as a whole number. -/
  digits : Nat
  /-- The power of ten of the last digit. -/
  exponent : Int
  deriving DecidableEq

/-- How many decimal digits a whole number has; none for zero. -/
def decimalLength (n : Nat) : Nat :=
  if n = 0 then 0 else decimalLength (n / 10) + 1
decreasing_by omega

/-- Compares `digits * 10 ^ exponent` with `num / den`. -/
def Digits.compareRatio (d : Digits) (num den : Nat) : Ordering :=
  compare (d.digits * Nat.pow 10 d.exponent.toNat * den) (num * Nat.pow 10 (-d.exponent).toNat)

/-- The reals that round to a double, as quarter units of its scale: the value
with the distances to both ends. -/
structure Neighbourhood where
  /-- The lower end. -/
  lower : Nat
  /-- The double itself. -/
  value : Nat
  /-- The upper end. -/
  upper : Nat
  /-- The common denominator of the three. -/
  den : Nat
  /-- Whether the ends belong to the interval. -/
  closed : Bool

/-- The interval that rounds to `x`: half a gap on each side, but a quarter
below a power of two, where the gap halves. -/
def neighbourhood (x : Binary64) : Neighbourhood :=
  let gap := Nat.pow 2 x.scale
  let value := 4 * x.units
  let below := if x.mantissa = Nat.pow 2 52 ∧ 0 < x.scale then gap else 2 * gap
  ⟨value - below, value, value + 2 * gap, 4 * unitsPerOne, x.mantissa % 2 = 0⟩

/-- Whether a decimal lies in the interval. -/
def Neighbourhood.contains (i : Neighbourhood) (d : Digits) : Bool :=
  let low := d.compareRatio i.lower i.den
  let high := d.compareRatio i.upper i.den
  if i.closed then low.isGE && high.isLE else low.isGT && high.isLT

/-- The decimal of last place `10 ^ exponent` that lies in the interval and is
nearest to the double, if there is one. -/
def Neighbourhood.nearestOnGrid? (i : Neighbourhood) (exponent : Int) : Option Digits :=
  let num := i.value * Nat.pow 10 (-exponent).toNat
  let den := i.den * Nat.pow 10 exponent.toNat
  let down : Digits := ⟨num / den, exponent⟩
  let up : Digits := ⟨num / den + 1, exponent⟩
  match i.contains down, i.contains up with
  | true, true => some ⟨roundHalfEven num den, exponent⟩
  | true, false => some down
  | false, true => some up
  | false, false => none

/-- The power of ten of the first digit of `num / den`. -/
def leadingExponent (num den : Nat) : Int :=
  let estimate : Int := decimalLength num - decimalLength den
  if den * Nat.pow 10 estimate.toNat ≤ num * Nat.pow 10 (-estimate).toNat then estimate
  else estimate - 1

/-- Drops trailing zeros of the digits. -/
def Digits.trim (d : Digits) : Digits :=
  if h : d.digits ≠ 0 ∧ d.digits % 10 = 0 then
    Digits.trim ⟨d.digits / 10, d.exponent + 1⟩
  else d
termination_by d.digits
decreasing_by
  have hpos : 0 < d.digits := Nat.pos_of_ne_zero h.1
  exact Nat.div_lt_self hpos (by decide)

/-- All digits of the magnitude of `x`, as the unit is `5 ^ 1074 * 10 ^ -1074`. -/
def exactDigits (x : Binary64) : Digits := ⟨x.units * Nat.pow 5 1074, -1074⟩

/-- The shortest digits that read back as the magnitude of `x`, nearest to it
among those. Seventeen digits always suffice. -/
def shortest (x : Binary64) : Digits :=
  if x.mantissa = 0 then ⟨0, 0⟩
  else
    let i := x.neighbourhood
    let first := leadingExponent i.value i.den
    let places := (List.range 17).map fun n : Nat => first - n
    ((places.findSome? i.nearestOnGrid?).getD x.exactDigits).trim

end Conformance.Binary64
