import Conformance.Json.Record
import Conformance.Validator

/-!
# Reading validated values as other data

An output of a validator may be read as data of another type. Integers are
read from integer numbers in range only, never from doubles; doubles from any
number.
-/

namespace Conformance

/-- A type whose values can be read from JSON. -/
class Decode (α : Type) where
  /-- The value that JSON denotes, if it fits the type. -/
  decode? : Json → Option α

export Decode (decode?)

namespace Decode

/-- Reads an integer number. -/
def integer? : Json → Option Int
  | .number (.int n _) => some n
  | _ => none

/-- Every JSON value reads as itself. -/
instance : Decode Json := ⟨some⟩

/-- Integers of signed 64-bit words. -/
instance : Decode Int64 where
  decode? value := do
    let n ← integer? value
    if fitsSigned n then some (Int64.ofInt n) else none

/-- Integers of unsigned 8-bit words. -/
instance : Decode UInt8 where
  decode? value := do
    let n ← integer? value
    if 0 ≤ n ∧ n < 256 then some (UInt8.ofNat n.toNat) else none

/-- Every number reads as the nearest double. -/
instance : Decode Binary64 where
  decode?
    | .number n => some n.toBinary64
    | _ => none

/-- Texts. -/
instance : Decode String where
  decode?
    | .string text => some text
    | _ => none

/-- Truth values. -/
instance : Decode Bool where
  decode?
    | .bool b => some b
    | _ => none

/-- Null reads as no value. -/
instance {α : Type} [Decode α] : Decode (Option α) where
  decode?
    | .null => some none
    | value => (decode? value).map some

/-- Lists read item by item. -/
instance {α : Type} [Decode α] : Decode (List α) where
  decode?
    | .array items => items.mapM decode?
    | _ => none

/-- The values of an object, under its keys. -/
def entries? {α : Type} [Decode α] : Json → Option (List (String × α))
  | .object entries => entries.mapM fun (key, value) => (decode? value).map fun a => (key, a)
  | _ => none

/-- The value that a record has under a name. -/
def field? (α : Type) [Decode α] (name : String) (entries : List (String × Json)) : Option α :=
  (Entries.lookup name entries).bind decode?

end Decode

/-- Why a value could not be read as data of a type. -/
inductive DecodeError where
  /-- The value does not conform to the schema. -/
  | rejected (report : Report)
  /-- The output of the check does not fit the type. -/
  | misfit

/-- The wording of the failure. -/
def DecodeError.message : DecodeError → String
  | .rejected report => "value rejected:\n" ++ report.render
  | .misfit => "validated value does not fit the target type: "

/-- Checks a value and reads the output as data of a type. -/
def Validator.validateInto (α : Type) [Decode α] (validator : Validator) (value : Json) :
    StateM Session (Except DecodeError α) := do
  match ← validator.validate value with
  | .error report => pure (.error (.rejected report))
  | .ok output =>
    match decode? output with
    | some a => pure (.ok a)
    | none => pure (.error .misfit)

end Conformance
