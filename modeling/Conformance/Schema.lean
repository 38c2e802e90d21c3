import Conformance.Literal
import Conformance.Path

/-!
# Schemas

A schema describes a set of JSON values. It is a finite tree whose leaves may
be references; the schema behind a reference lies in a cell of a store, so
that the graph of a store and its references may be cyclic.
-/

namespace Conformance

/-- A descriptor of single values, decided by a leaf policy. -/
inductive Leaf where
  /-- Any number. -/
  | number
  /-- A number without fractional part. -/
  | int
  /-- Any number, under another name. -/
  | float
  /-- Any text. -/
  | string
  /-- A truth value. -/
  | boolean
  /-- A text that is not empty. -/
  | id
  /-- Exactly the given constant. -/
  | literal (value : Literal)
  deriving DecidableEq

/-- The name of a cell of a store. -/
abbrev CellId := Nat

/-- How a reference holds its cell. -/
inductive Hold where
  /-- A delayed schema; the reference keeps its cell alive. -/
  | thunk
  /-- The handle of a recursive definition; it keeps the definition alive. -/
  | owner
  /-- A mention of a definition inside itself; it keeps nothing alive. -/
  | back
  deriving DecidableEq

/-- A reference to the schema in a cell. -/
structure Reference where
  /-- The cell in which the schema lies. -/
  cell : CellId
  /-- How the reference holds the cell. -/
  hold : Hold
  deriving DecidableEq

/-- Whether two references lead through the same cell. -/
def Reference.sameTarget (r s : Reference) : Bool := r.cell == s.cell

/-- A field of a struct or object, with what documents it. -/
structure Field (σ : Type) where
  /-- The key under which the field lies. -/
  name : String
  /-- What the value of the field conforms to. -/
  schema : σ
  /-- A text for readers, if there is one. -/
  description : Option String
  /-- Whether the field is deprecated; this changes no check. -/
  deprecated : Bool

/-- A description of JSON values. -/
inductive Schema where
  /-- A single value. -/
  | leaf (kind : Leaf)
  /-- A list whose items all conform. -/
  | list (element : Schema)
  /-- Null, or a value that conforms. -/
  | nullable (inner : Schema)
  /-- An object of which the declared fields count. -/
  | struct (fields : List (Field Schema))
  /-- A struct with a name of its own. -/
  | object (name : String) (fields : List (Field Schema))
  /-- The first member that accepts the value. -/
  | union (members : List Schema)
  /-- All members, with their outputs merged. -/
  | intersection (members : List Schema)
  /-- An object whose values all conform, under any keys. -/
  | record (entry : Schema)
  /-- Any value within the depth limit. -/
  | json
  /-- Any value. -/
  | any
  /-- The schema in a cell of the store. -/
  | reference (target : Reference)

/-- The name of the kind of a leaf. -/
def Leaf.kind : Leaf → String
  | .number => "number"
  | .int => "int"
  | .float => "float"
  | .string => "string"
  | .boolean => "boolean"
  | .id => "id"
  | .literal _ => "literal"

namespace Schema

/-- The schema of exactly one constant. -/
def literal (value : Literal) : Schema := .leaf (.literal value)

/-- The name of the kind of a schema. -/
def kind : Schema → String
  | .leaf k => k.kind
  | .list _ => "list"
  | .nullable _ => "nullable"
  | .struct _ => "struct"
  | .object _ _ => "object"
  | .union _ => "union"
  | .intersection _ => "intersection"
  | .record _ => "record"
  | .json => "json"
  | .any => "any"
  | .reference _ => "deferred"

/-- The declared fields of a struct or object. -/
def fields? : Schema → Option (List (Field Schema))
  | .struct fields => some fields
  | .object _ fields => some fields
  | _ => none

/-- The field of a declared name. -/
def fieldNamed? (name : String) (fields : List (Field Schema)) : Option (Field Schema) :=
  fields.find? fun field => field.name == name

/-- The part of a schema under a key: a field by its name and a member by its
position. A list, a record and a nullable schema have one part, which any key
finds. References are not followed. -/
def child? (key : String) : Schema → Option Schema
  | .struct fields | .object _ fields => (fieldNamed? key fields).map Field.schema
  | .union members | .intersection members =>
    (Numeral.parsePosition? key.toList).bind fun position => members[position]?
  | .list inner | .nullable inner | .record inner => some inner
  | _ => none

end Schema

end Conformance
