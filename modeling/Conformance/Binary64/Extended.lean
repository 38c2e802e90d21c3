import Conformance.Numeral

/-!
# Doubles with the values beyond the finite ones

The text of a floating literal may denote an infinity, by name or by
magnitude, or no number at all. JSON has no such values.
-/

namespace Conformance

/-- A double that is not finite. -/
inductive NonFinite where
  /-- An infinity of the given sign. -/
  | infinite (negative : Bool)
  /-- Not a number. -/
  | notANumber
  deriving DecidableEq

/-- The text of a double that is not finite, as messages show it. -/
def NonFinite.render : NonFinite → String
  | .infinite negative => if negative then "-inf" else "inf"
  | .notANumber => "NaN"

/-- A double, finite or not. -/
inductive Extended where
  /-- A finite double. -/
  | finite (value : Binary64)
  /-- An infinity or no number. -/
  | other (value : NonFinite)
  deriving DecidableEq

/-- Reads a numeral, rounded to nearest, or one of the names `inf`, `infinity`
and `nan`, in any case and with an optional sign. -/
def Extended.parse? (text : String) : Option Extended :=
  let (sign, rest) := Numeral.splitSign text.toList
  let negative := sign = some true
  let name := String.ofList (rest.map Char.toLower)
  if name = "inf" ∨ name = "infinity" then some (.other (.infinite negative))
  else if name = "nan" then some (.other .notANumber)
  else
    (Numeral.parse? text.toList).map fun numeral =>
      (numeral.toBinary64?.map Extended.finite).getD (.other (.infinite negative))

end Conformance
