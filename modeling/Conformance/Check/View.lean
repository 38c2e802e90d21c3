import Conformance.Path
import Conformance.Schema

/-!
# Containers as rows of children

A container schema takes a value apart into its children, each with the
schema that it has to meet, and puts it together again from their outputs.
The children nest less deeply than the value, which the type of a view says.
-/

namespace Conformance

/-- One thing that a container asks for. -/
inductive Child where
  /-- The value at a segment has to conform. -/
  | present (segment : Segment) (schema : Schema) (value : Json)
  /-- There is no value under a name, so the schema has to accept absence. -/
  | absent (name : String) (schema : Schema)

namespace Child

/-- The nesting of the value that the child brings. -/
def nesting : Child → Nat
  | .present _ _ value => value.nesting
  | .absent _ _ => 0

/-- The greatest nesting in a row of children. -/
def nestingAll : List Child → Nat
  | [] => 0
  | child :: rest => max child.nesting (nestingAll rest)

/-- The items of a list, from a position on. -/
def ofItems (schema : Schema) : Nat → List Json → List Child
  | _, [] => []
  | position, item :: rest =>
    .present (.index position) schema item :: ofItems schema (position + 1) rest

/-- The entries of an object. -/
def ofEntries (schema : Schema) (entries : List (String × Json)) : List Child :=
  entries.map fun (key, value) => .present (.key key) schema value

/-- A declared field, with its value in an object if there is one. -/
def ofField (entries : List (String × Json)) (field : Field Schema) : Child :=
  match Entries.lookup field.name entries with
  | some value => .present (.key field.name) field.schema value
  | none => .absent field.name field.schema

end Child

/-- The outputs of the children that are present, under their names. -/
def nameOutputs (names : List String) (outputs : List (Option Json)) : List (String × Json) :=
  (names.zip outputs).filterMap fun (name, output) => output.map fun value => (name, value)

/-- The items of a list nest as deeply as the list says. -/
theorem Child.nestingAll_ofItems (schema : Schema) (position : Nat) (items : List Json) :
    Child.nestingAll (Child.ofItems schema position items) = Json.nestingItems items := by
  induction items generalizing position with
  | nil => rfl
  | cons item rest ih =>
    simp [Child.ofItems, Child.nestingAll, Child.nesting, Json.nestingItems, ih]

/-- The entries of an object nest as deeply as the object says. -/
theorem Child.nestingAll_ofEntries (schema : Schema) (entries : List (String × Json)) :
    Child.nestingAll (Child.ofEntries schema entries) = Json.nestingEntries entries := by
  induction entries with
  | nil => rfl
  | cons entry rest ih =>
    simp only [Child.ofEntries] at ih
    simp [Child.ofEntries, Child.nestingAll, Child.nesting, Json.nestingEntries, ih]

/-- A declared field nests no deeper than the entries it is looked up in. -/
theorem Child.nesting_ofField_le (entries : List (String × Json)) (field : Field Schema) :
    (Child.ofField entries field).nesting ≤ Json.nestingEntries entries := by
  unfold Child.ofField
  split
  · next h => exact Json.nesting_le_of_lookup h
  · exact Nat.zero_le _

/-- The declared fields nest no deeper than the entries they are looked up in. -/
theorem Child.nestingAll_ofFields_le (entries : List (String × Json))
    (fields : List (Field Schema)) :
    Child.nestingAll (fields.map (Child.ofField entries)) ≤ Json.nestingEntries entries := by
  induction fields with
  | nil => exact Nat.zero_le _
  | cons field rest ih =>
    have := Child.nesting_ofField_le entries field
    simp only [List.map_cons, Child.nestingAll]
    omega

/-- How a value of a given nesting looks to a schema that is decided by the
children of the value. -/
inductive View (nesting : Nat) where
  /-- There is nothing to look into; the value is accepted as it is. -/
  | plain
  /-- The value is not the container that is expected. -/
  | mismatch (expected : String)
  /-- The value is a container with these children, put together again from
  their outputs. -/
  | container (children : List Child) (assemble : List (Option Json) → Json)
    (smaller : Child.nestingAll children < nesting)

namespace View

/-- A list whose items all meet one schema. -/
def ofItems (schema : Schema) (items : List Json) : View (Json.array items).nesting :=
  .container (Child.ofItems schema 0 items)
    (fun outputs => .array (outputs.filterMap fun output => output))
    (by simp [Child.nestingAll_ofItems, Json.nesting])

/-- An object whose values all meet one schema. -/
def ofEntries (schema : Schema) (entries : List (String × Json)) :
    View (Json.object entries).nesting :=
  .container (Child.ofEntries schema entries)
    (fun outputs => .object (nameOutputs (entries.map Prod.fst) outputs))
    (by simp [Child.nestingAll_ofEntries, Json.nesting])

/-- An object of which the declared fields count, in their declared order. -/
def ofFields (fields : List (Field Schema)) (entries : List (String × Json)) :
    View (Json.object entries).nesting :=
  .container (fields.map (Child.ofField entries))
    (fun outputs => .object (nameOutputs (fields.map Field.name) outputs))
    (by
      have := Child.nestingAll_ofFields_le entries fields
      simp only [Json.nesting]
      omega)

/-- How a value looks to a container schema. -/
def of : Schema → (value : Json) → View value.nesting
  | .list element, .array items => ofItems element items
  | .list _, _ => .mismatch "list"
  | .struct fields, .object entries => ofFields fields entries
  | .struct _, _ => .mismatch "object"
  | .object _ fields, .object entries => ofFields fields entries
  | .object _ _, _ => .mismatch "object"
  | .record entry, .object entries => ofEntries entry entries
  | .record _, _ => .mismatch "object"
  | .json, .array items => ofItems .json items
  | .json, .object entries => ofEntries .json entries
  | _, _ => .plain

end View

end Conformance
