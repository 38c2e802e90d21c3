import Conformance.Schema

/-!
# Declaring schemas

Schemas with a condition on their parts are declared through the functions of
this module. Unions and intersections have at least one member, field names
are distinct and not empty, and object types have a name. A declaration of
fields keeps its first mistake and reports it when it is completed.
-/

namespace Conformance

/-- A mistake in the declaration of a schema. -/
inductive DefinitionError where
  /-- A union without members. -/
  | emptyUnion
  /-- An intersection without members. -/
  | emptyIntersection
  /-- A field name that was declared before. -/
  | duplicateField (field owner : String)
  /-- A field without a name. -/
  | emptyFieldName (owner : String)
  /-- An object type without a name. -/
  | emptyTypeName
  /-- A literal that JSON cannot denote. -/
  | nonFiniteLiteral (value : NonFinite)
  deriving DecidableEq

/-- The wording of a mistake. -/
def DefinitionError.message : DefinitionError → String
  | .emptyUnion => "a union must declare at least one member"
  | .emptyIntersection => "an intersection must declare at least one member"
  | .duplicateField field owner =>
    "field '" ++ field ++ "' is declared more than once on " ++ owner
  | .emptyFieldName owner => owner ++ " declares a field with an empty name"
  | .emptyTypeName => "object types must have a non-empty name"
  | .nonFiniteLiteral value => "literal " ++ value.render ++ " is not a finite number"

/-- The literal of a finite double. -/
def Literal.ofExtended : Extended → Except DefinitionError Literal
  | .finite x => .ok (.number (.float x))
  | .other value => .error (.nonFiniteLiteral value)

/-- The union of at least one member. -/
def Schema.unionOf (members : List Schema) : Except DefinitionError Schema :=
  if members.isEmpty then .error .emptyUnion else .ok (.union members)

/-- The intersection of at least one member. -/
def Schema.intersectionOf (members : List Schema) : Except DefinitionError Schema :=
  if members.isEmpty then .error .emptyIntersection else .ok (.intersection members)

/-- The fields of a struct or object type, declared one after the other. -/
structure Declaration where
  /-- The name of the object type; a struct has none. -/
  name : Option String
  /-- The fields declared before the first mistake. -/
  fields : List (Field Schema)
  /-- The first mistake, if there was one. -/
  mistake : Option DefinitionError

namespace Declaration

/-- A struct without fields. -/
def struct : Declaration := ⟨none, [], none⟩

/-- An object type without fields. -/
def object (name : String) : Declaration := ⟨some name, [], none⟩

/-- How messages name what is being declared. -/
def owner (declaration : Declaration) : String :=
  match declaration.name with
  | some name => "object type '" ++ name ++ "'"
  | none => "struct"

/-- Declares one more field. After a mistake nothing is declared any more. -/
def field (declaration : Declaration) (field : Field Schema) : Declaration :=
  if declaration.mistake.isSome then declaration
  else if field.name.isEmpty then
    { declaration with mistake := some (.emptyFieldName declaration.owner) }
  else if declaration.fields.any fun declared => declared.name == field.name then
    { declaration with mistake := some (.duplicateField field.name declaration.owner) }
  else { declaration with fields := declaration.fields ++ [field] }

/-- Declares several fields in order. -/
def addFields (declaration : Declaration) (fields : List (Field Schema)) : Declaration :=
  fields.foldl Declaration.field declaration

/-- Completes the declaration, or gives its first mistake; that the type has no
name counts last. -/
def complete (declaration : Declaration) : Except DefinitionError Schema :=
  match declaration.mistake, declaration.name with
  | some mistake, _ => .error mistake
  | none, none => .ok (.struct declaration.fields)
  | none, some name =>
    if name.isEmpty then .error .emptyTypeName else .ok (.object name declaration.fields)

end Declaration

end Conformance
