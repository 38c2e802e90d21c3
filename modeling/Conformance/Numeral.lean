import Conformance.Binary64

/-!
# Decimal numerals

A numeral is an optional sign, decimal digits with an optional point (at
least one digit on either side of it) and an optional exponent. Only ASCII
digits count. A numeral without point and exponent is whole.
-/

namespace Conformance

/-- The parts of a decimal numeral as written. -/
structure Numeral where
  /-- The sign, if one is written: true for a minus. -/
  sign : Option Bool
  /-- The digits before the point. -/
  whole : List Char
  /-- The digits after the point, if there is a point. -/
  fraction : Option (List Char)
  /-- The value of the exponent, if there is one. -/
  exponent : Option Int

namespace Numeral

/-- Splits off a leading sign: true for a minus. -/
def splitSign : List Char → Option Bool × List Char
  | '-' :: rest => (some true, rest)
  | '+' :: rest => (some false, rest)
  | rest => (none, rest)

/-- Splits off the leading decimal digits. -/
def splitDigits (cs : List Char) : List Char × List Char :=
  (cs.takeWhile Char.isDigit, cs.dropWhile Char.isDigit)

/-- Splits off a point with the digits after it. -/
def splitFraction : List Char → Option (List Char) × List Char
  | '.' :: rest => (some (splitDigits rest).1, (splitDigits rest).2)
  | rest => (none, rest)

/-- The whole number that a row of digits denotes. -/
def digitsValue (digits : List Char) : Nat :=
  digits.foldl (fun n c => 10 * n + (c.toNat - '0'.toNat)) 0

/-- Reads a position: at least one digit, after a plus sign or none, with
nothing after them. -/
def parsePosition? (cs : List Char) : Option Nat :=
  let (sign, rest) := splitSign cs
  let (digits, rest) := splitDigits rest
  if sign = some true || digits.isEmpty || !rest.isEmpty then none
  else some (digitsValue digits)

/-- Reads an optional sign and at least one digit, with nothing after them. -/
def parseExponent? (cs : List Char) : Option Int :=
  let (sign, rest) := splitSign cs
  let (digits, rest) := splitDigits rest
  if digits.isEmpty || !rest.isEmpty then none
  else if sign = some true then some (-(digitsValue digits : Int))
  else some (digitsValue digits)

/-- Reads the whole text as a numeral. -/
def parse? (cs : List Char) : Option Numeral :=
  let (sign, rest) := splitSign cs
  let (whole, rest) := splitDigits rest
  let (fraction, rest) := splitFraction rest
  if whole.isEmpty && (fraction.getD []).isEmpty then none
  else
    match rest with
    | [] => some ⟨sign, whole, fraction, none⟩
    | c :: rest =>
      if c = 'e' ∨ c = 'E' then
        (parseExponent? rest).map fun exponent => ⟨sign, whole, fraction, some exponent⟩
      else none

/-- Whether the sign is a minus. -/
def isNegative (n : Numeral) : Bool := n.sign = some true

/-- Whether there is neither a point nor an exponent. -/
def isWhole (n : Numeral) : Bool := n.fraction.isNone && n.exponent.isNone

/-- The signed value of the digits before the point. -/
def wholeValue (n : Numeral) : Int :=
  if n.isNegative then -(digitsValue n.whole : Int) else digitsValue n.whole

/-- The nearest double; none when the numeral lies beyond the greatest one. -/
def toBinary64? (n : Numeral) : Option Binary64 :=
  let fraction := n.fraction.getD []
  Binary64.ofDecimal? n.isNegative (digitsValue (n.whole ++ fraction))
    (n.exponent.getD 0 - fraction.length)

end Numeral

end Conformance
