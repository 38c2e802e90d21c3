/-!
# Finite doubles as whole multiples of one unit

Every finite double is a whole multiple of `2 ^ -1074`, the least positive
one. A value here is a sign with a mantissa and a scale in the one canonical
form, so equal data are equal numbers up to the sign of zero. Rounding to
the nearest double, ties to the even mantissa, is exact arithmetic on
natural numbers; no machine float takes part.
-/

namespace Conformance

/-- The finite double `± mantissa * 2 ^ scale` units of `2 ^ -1074`, in
canonical form: the mantissa is full unless the scale is zero. -/
structure Binary64 where
  /-- Whether the sign bit is set; zero has both signs. -/
  negative : Bool
  /-- At most 53 binary digits. -/
  mantissa : Nat
  /-- The power of two by which the mantissa is scaled. -/
  scale : Nat
  mantissa_lt : mantissa < Nat.pow 2 53
  scale_le : scale ≤ 2045
  full : scale = 0 ∨ Nat.pow 2 52 ≤ mantissa
  deriving DecidableEq

namespace Binary64

/-- One, counted in units of `2 ^ -1074`. -/
def unitsPerOne : Nat := Nat.pow 2 1074

/-- The magnitude, counted in units of `2 ^ -1074`. -/
def units (x : Binary64) : Nat := x.mantissa * Nat.pow 2 x.scale

/-- The signed value, counted in units of `2 ^ -1074`. -/
def signedUnits (x : Binary64) : Int :=
  if x.negative then -(x.units : Int) else x.units

/-- Zero with the given sign. -/
def zero (negative : Bool) : Binary64 :=
  ⟨negative, 0, 0, by decide, by decide, .inl rfl⟩

/-- Equality of values: the two zeros are equal. -/
def sameValue (x y : Binary64) : Bool := x.signedUnits == y.signedUnits

/-- The double with these parts, if they are canonical. -/
def ofParts? (negative : Bool) (mantissa scale : Nat) : Option Binary64 :=
  if h : mantissa < Nat.pow 2 53 ∧ scale ≤ 2045 ∧ (scale = 0 ∨ Nat.pow 2 52 ≤ mantissa) then
    some ⟨negative, mantissa, scale, h.1, h.2.1, h.2.2⟩
  else none

/-- A double is made of its own parts. -/
theorem ofParts?_self (x : Binary64) : ofParts? x.negative x.mantissa x.scale = some x := by
  exact dif_pos ⟨x.mantissa_lt, x.scale_le, x.full⟩

/-- The whole number nearest to `num / den`, a half going to the even one. -/
def roundHalfEven (num den : Nat) : Nat :=
  let quotient := num / den
  let twice := 2 * (num % den)
  if twice < den then quotient
  else if den < twice then quotient + 1
  else quotient + quotient % 2

/-- The scale at which `whole` units fill the mantissa. -/
def scaleOf (whole : Nat) : Nat :=
  if whole < Nat.pow 2 53 then 0 else whole.log2 - 52

/-- The double nearest to `± num / den`, ties to the even mantissa; none when
the magnitude rounds beyond the greatest double. -/
def ofRatio? (negative : Bool) (num den : Nat) : Option Binary64 :=
  let scaled := num * unitsPerOne
  let scale := scaleOf (scaled / den)
  let mantissa := roundHalfEven scaled (den * Nat.pow 2 scale)
  if mantissa = Nat.pow 2 53 then ofParts? negative (Nat.pow 2 52) (scale + 1)
  else ofParts? negative mantissa scale

/-- The double nearest to `± digits * 10 ^ exponent`. Magnitudes that the
binary lengths already place beyond the greatest double, or below half the
least one, are decided without forming the power of ten. -/
def ofDecimal? (negative : Bool) (digits : Nat) (exponent : Int) : Option Binary64 :=
  if digits = 0 then some (zero negative)
  else if 0 ≤ exponent ∧ 1024 ≤ digits.log2 + 3 * exponent then none
  else if exponent < 0 ∧ digits.log2 + 1 + 3 * exponent ≤ -1075 then some (zero negative)
  else if 0 ≤ exponent then ofRatio? negative (digits * Nat.pow 10 exponent.toNat) 1
  else ofRatio? negative digits (Nat.pow 10 (-exponent).toNat)

/-- The double nearest to a whole number; none beyond the greatest double. -/
def ofInt? (n : Int) : Option Binary64 := ofRatio? (n < 0) n.natAbs 1

/-- The value rounded toward zero to a whole number. -/
def integerPart (x : Binary64) : Int :=
  let whole : Int := (x.units / unitsPerOne : Nat)
  if x.negative then -whole else whole

/-- Whether the value is a whole number. -/
def isInteger (x : Binary64) : Bool := x.units % unitsPerOne == 0

end Binary64

end Conformance
