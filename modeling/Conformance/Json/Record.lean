import Conformance.Json

/-!
# Records in JSON

A record is written in one of two ways: as an object, which names its fields
in any order, or as a list, which has their values in the declared order and
may stop early. A name from a fixed choice is written as a text, or as an
object with that name as its only key and null under it.
-/

namespace Conformance.Json

/-- The fields of a record: the entries of an object, or the items of a list
under the declared names. A list with more items than names is no record. -/
def recordEntries? (names : List String) : Json → Option (List (String × Json))
  | .object entries => some entries
  | .array items => if items.length ≤ names.length then some (names.zip items) else none
  | _ => none

/-- The name that is written in place of a choice. -/
def choice? : Json → Option String
  | .string name => some name
  | .object [(name, .null)] => some name
  | _ => none

/-- The fields of an object are its entries, whatever the declared names. -/
@[simp]
theorem recordEntries?_object (names : List String) (entries : List (String × Json)) :
    recordEntries? names (.object entries) = some entries := rfl

/-- A list is a record if and only if it has no more items than names. -/
theorem recordEntries?_array_isSome (names : List String) (items : List Json) :
    (recordEntries? names (.array items)).isSome ↔ items.length ≤ names.length := by
  simp only [recordEntries?]
  split <;> simp_all

end Conformance.Json
