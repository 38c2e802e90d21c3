import Conformance.Entries
import Conformance.Number

/-!
# The JSON data model

An object is a row of entries in its own order. Its keys are distinct in
every value that the reader and the checks of this library produce.
-/

namespace Conformance

/-- A JSON value. -/
inductive Json where
  /-- The null value. -/
  | null
  /-- A truth value. -/
  | bool (value : Bool)
  /-- A number. -/
  | number (value : Number)
  /-- A text. -/
  | string (value : String)
  /-- A list of values. -/
  | array (items : List Json)
  /-- The entries of an object, in their own order. -/
  | object (entries : List (String × Json))

namespace Json

instance : Inhabited Json := ⟨.null⟩

/-- The integer as a JSON number, if it is in range. -/
def ofInt? (n : Int) : Option Json := (Number.ofInt? n).map .number

/-- The name of the kind of a value. -/
def kind : Json → String
  | .null => "null"
  | .bool _ => "boolean"
  | .number _ => "number"
  | .string _ => "string"
  | .array _ => "list"
  | .object _ => "object"

/-- Whether the value is null. -/
def isNull : Json → Bool
  | .null => true
  | _ => false

mutual

/-- The container nesting: zero for a scalar, and for a container one more than
the greatest nesting inside it. -/
def nesting : Json → Nat
  | .array items => nestingItems items + 1
  | .object entries => nestingEntries entries + 1
  | _ => 0

/-- The greatest nesting in a list of values. -/
def nestingItems : List Json → Nat
  | [] => 0
  | v :: rest => max (nesting v) (nestingItems rest)

/-- The greatest nesting in an entry row. -/
def nestingEntries : List (String × Json) → Nat
  | [] => 0
  | (_, v) :: rest => max (nesting v) (nestingEntries rest)

end

/-- A value that an object has under a key nests no deeper than its entries. -/
theorem nesting_le_of_lookup {name : String} {entries : List (String × Json)} {value : Json}
    (h : Entries.lookup name entries = some value) :
    value.nesting ≤ nestingEntries entries := by
  induction entries with
  | nil => simp [Entries.lookup] at h
  | cons entry rest ih =>
    obtain ⟨key, first⟩ := entry
    simp only [Entries.lookup] at h
    split at h
    · cases h
      simp only [nestingEntries]
      omega
    · have := ih h
      simp only [nestingEntries]
      omega

mutual

/-- Equality of data: lists in order, objects regardless of the order of their
keys, numbers by kind and value. -/
def sameData : Json → Json → Bool
  | .null, .null => true
  | .bool a, .bool b => a == b
  | .number a, .number b => a.sameData b
  | .string a, .string b => a == b
  | .array xs, .array ys => sameItems xs ys
  | .object es, .object fs => es.length == fs.length && sameEntries es fs
  | _, _ => false

/-- Equality of data, item by item. -/
def sameItems : List Json → List Json → Bool
  | [], [] => true
  | x :: xs, y :: ys => sameData x y && sameItems xs ys
  | _, _ => false

/-- Whether every entry of the first row has equal data under its key in the
second. -/
def sameEntries : List (String × Json) → List (String × Json) → Bool
  | [], _ => true
  | (k, v) :: rest, fs =>
    (match Entries.lookup k fs with
      | some w => sameData v w
      | none => false) && sameEntries rest fs

end

end Json

end Conformance
