import Conformance.Schema.Absence
import Conformance.Schema.Declaration
import Conformance.Schema.Display
import Conformance.Store.Release

/-!
# Blueprints

A blueprint is a written form of a schema. Building it lays its delayed and
recursive parts into cells of a store. Parts are built from left to right
before their owner, so the leftmost innermost mistake is the one reported.
-/

namespace Conformance

/-- A written form of a schema. -/
inductive Blueprint where
  /-- A single value. -/
  | leaf (kind : Leaf)
  /-- The literal of a double, which has to be finite. -/
  | double (value : Extended)
  /-- Any value within the depth limit. -/
  | json
  /-- Any value. -/
  | any
  /-- A list. -/
  | list (element : Blueprint)
  /-- Null or a value. -/
  | nullable (inner : Blueprint)
  /-- An object under any keys. -/
  | record (entry : Blueprint)
  /-- A union. -/
  | union (members : List Blueprint)
  /-- An intersection. -/
  | intersection (members : List Blueprint)
  /-- A struct. -/
  | struct (fields : List (Field Blueprint))
  /-- An object type. -/
  | object (name : String) (fields : List (Field Blueprint))
  /-- A definition that may mention itself by a label. -/
  | recursive (label : String) (body : Blueprint)
  /-- A mention of the innermost enclosing definition of a label; it may be
  inspected while that definition is still being built. -/
  | self (label : String) (inspected : Bool)
  /-- A schema behind a reference, built at once and looked at later. -/
  | delayed (body : Blueprint) (counter : Option String)
  /-- A reference to what a name is bound to when it is first followed. -/
  | late (name : String)
  /-- The schema that is bound to a name now. -/
  | bound (name : String)
  /-- The schema at the end of the references of another one, which is then
  given up. -/
  | resolved (body : Blueprint)

/-- A schema behind so many references. -/
def Blueprint.chain : Nat → Blueprint → Blueprint
  | 0, body => body
  | n + 1, body => .delayed (chain n body) none

/-- Why a blueprint could not be built. -/
inductive BuildError where
  /-- A mistake in a declaration. -/
  | definition (mistake : DefinitionError)
  /-- References that end nowhere. -/
  | unresolvable
  /-- A label or name without a meaning. -/
  | unknownName (name : String)

/-- What a mention of an unfinished definition looks like. -/
structure Inspection where
  /-- The type expression. -/
  expression : String
  /-- The name of the kind. -/
  kind : String
  /-- Whether the cell is filled. -/
  isFilled : Bool
  /-- Whether following the reference gives a schema. -/
  leadsOn : Bool
  /-- Whether it resolves to a concrete schema. -/
  resolves : Bool
  /-- Whether it accepts absence. -/
  acceptsAbsent : Bool
  /-- The state of the reference as text. -/
  description : String

/-- The store that is being filled, and what was inspected on the way. -/
structure Workshop where
  /-- The cells behind references. -/
  store : Store
  /-- The inspections, in order. -/
  inspections : List Inspection

/-- A step of building. -/
abbrev Build := ExceptT BuildError (StateM Workshop)

namespace Build

/-- Runs a step on the store. -/
def onStore {α : Type} (step : StateM Store α) : Build α := fun workshop =>
  let (result, store) := step workshop.store
  (.ok result, { workshop with store })

/-- Takes over the result of a declaration. -/
def ofDefinition : Except DefinitionError Schema → Build Schema
  | .ok schema => pure schema
  | .error mistake => throw (.definition mistake)

/-- A new cell in a given state. -/
def allocate (state : Cell) : Build CellId := onStore fun store => store.allocate state

/-- Inspects a mention of an unfinished definition. -/
def inspect (r : Reference) : Build Unit := do
  let store := (← get).store
  let schema := Schema.reference r
  let leadsOn := (← onStore (Store.fetch? r.cell)).isSome
  let resolves := (← onStore schema.resolve?).isSome
  let acceptsAbsent ← onStore schema.acceptsAbsent
  let inspection : Inspection :=
    ⟨schema.render store, schema.kind, (store.peek? r.cell).isSome, leadsOn, resolves,
      acceptsAbsent, r.describe store⟩
  modify fun workshop =>
    { workshop with inspections := workshop.inspections ++ [inspection] }

end Build

namespace Blueprint

mutual

/-- Builds a blueprint inside the definitions of the given labels, innermost
first. -/
def buildIn (enclosing : List (String × CellId)) : Blueprint → Build Schema
  | .leaf kind => pure (.leaf kind)
  | .double value => Build.ofDefinition ((Literal.ofExtended value).map Schema.literal)
  | .json => pure .json
  | .any => pure .any
  | .list element => return .list (← buildIn enclosing element)
  | .nullable inner => return .nullable (← buildIn enclosing inner)
  | .record entry => return .record (← buildIn enclosing entry)
  | .union members => do
    Build.ofDefinition (Schema.unionOf (← buildMembers enclosing members))
  | .intersection members => do
    Build.ofDefinition (Schema.intersectionOf (← buildMembers enclosing members))
  | .struct fields => do
    let fields ← buildFields enclosing fields
    Build.ofDefinition (Declaration.struct.addFields fields).complete
  | .object name fields => do
    let fields ← buildFields enclosing fields
    Build.ofDefinition ((Declaration.object name).addFields fields).complete
  | .recursive label body => do
    let cell ← Build.allocate .undefined
    let schema ← buildIn ((label, cell) :: enclosing) body
    Build.onStore (modify fun store => store.setCell cell (.filled schema))
    return .reference ⟨cell, .owner⟩
  | .self label inspected => do
    match Entries.lookup label enclosing with
    | none => throw (.unknownName label)
    | some cell =>
      if inspected then Build.inspect ⟨cell, .back⟩
      return .reference ⟨cell, .back⟩
  | .delayed body counter => do
    let schema ← buildIn enclosing body
    return .reference ⟨← Build.allocate (.pending (.constant schema counter)), .thunk⟩
  | .late name => return .reference ⟨← Build.allocate (.pending (.binding name)), .thunk⟩
  | .bound name => do
    match (← get).store.bound? name with
    | some schema => return schema
    | none => throw (.unknownName name)
  | .resolved body => do
    let schema ← buildIn enclosing body
    match ← Build.onStore schema.resolve? with
    | some concrete => return concrete
    | none => throw .unresolvable

/-- Builds members from left to right. -/
def buildMembers (enclosing : List (String × CellId)) : List Blueprint → Build (List Schema)
  | [] => pure []
  | member :: rest => do
    let schema ← buildIn enclosing member
    return schema :: (← buildMembers enclosing rest)

/-- Builds the schemas of fields from left to right. -/
def buildFields (enclosing : List (String × CellId)) :
    List (Field Blueprint) → Build (List (Field Schema))
  | [] => pure []
  | ⟨name, blueprint, description, deprecated⟩ :: rest => do
    let schema ← buildIn enclosing blueprint
    return ⟨name, schema, description, deprecated⟩ :: (← buildFields enclosing rest)

end

/-- Builds a blueprint that stands alone. -/
def build (blueprint : Blueprint) : StateM Workshop (Except BuildError Schema) :=
  (blueprint.buildIn []).run

end Blueprint

end Conformance
