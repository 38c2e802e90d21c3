import Conformance.Journal
import Conformance.Proofs.Containers
import Conformance.Schema.Absence

/-!
# Schema graphs

A schema together with the schemas behind cells spans a graph, which may be
cyclic. Following a cell fills it but never changes what any cell leads to,
so what a session finds out about a graph does not depend on its history.
-/

namespace Conformance

/-- The schemas behind the cells of a store. -/
abbrev Targets := CellId → Option Schema

/-- Following a cell changes the target of none. -/
theorem Store.target?_fetch?_eq (store : Store) (cell : CellId) :
    (Store.fetch? cell store).2.target? = store.target? :=
  funext fun other => Store.target?_fetch? store cell other

/-- A cell that was followed leads where it did, and the graph is the same. -/
theorem Session.onStore_fetch? (session : Session) (cell : CellId) :
    ∃ later : Session, Session.onStore (Store.fetch? cell) session =
        (session.store.target? cell, later) ∧ later.store.target? = session.store.target? :=
  ⟨{ session with store := (Store.fetch? cell session.store).2 },
    Prod.ext (Store.fetch?_fst session.store cell) rfl,
    Store.target?_fetch?_eq session.store cell⟩

namespace Schema

/-- The schemas that a schema is directly made of. References are not followed. -/
def parts : Schema → List Schema
  | .list inner | .nullable inner | .record inner => [inner]
  | .struct fields | .object _ fields => fields.map Field.schema
  | .union members | .intersection members => members
  | .leaf _ | .json | .any | .reference _ => []

/-- A part is smaller than the schema that it is a part of. -/
theorem sizeOf_part {schema part : Schema} (h : part ∈ schema.parts) :
    sizeOf part < sizeOf schema := by
  cases schema with
  | list inner | nullable inner | record inner =>
    rw [List.mem_singleton.mp h]
    simp
  | union members | intersection members =>
    have hmember : sizeOf part < sizeOf members := List.sizeOf_lt_of_mem h
    simp only [union.sizeOf_spec, intersection.sizeOf_spec]
    omega
  | struct fields | object name fields =>
    obtain ⟨field, hm, rfl⟩ := List.mem_map.mp h
    have hfield := List.sizeOf_lt_of_mem hm
    obtain ⟨name, schema, description, deprecated⟩ := field
    simp only [Field.mk.sizeOf_spec, struct.sizeOf_spec, object.sizeOf_spec] at hfield ⊢
    omega
  | leaf | json | any | reference => cases h

/-- A schema occurs in the graph of another: as a part, or behind a reference. -/
inductive Reaches (targets : Targets) (root : Schema) : Schema → Prop
  /-- The root occurs in its own graph. -/
  | root : Reaches targets root root
  /-- A part occurs where the whole does. -/
  | part {whole part : Schema} (h : Reaches targets root whole) (hp : part ∈ whole.parts) :
    Reaches targets root part
  /-- The schema behind a reference occurs where the reference does. -/
  | target {r : Reference} {schema : Schema} (h : Reaches targets root (.reference r))
    (ht : targets r.cell = some schema) : Reaches targets root schema

/-- A row of schemas that holds the root, and with a schema its parts and what is
behind it, holds the whole graph. -/
theorem Reaches.mem_of_closed {targets : Targets} {root schema : Schema} {P : Schema → Prop}
    (h : Reaches targets root schema) (hroot : P root)
    (hpart : ∀ whole, P whole → ∀ part ∈ whole.parts, P part)
    (htarget : ∀ r, P (.reference r) → ∀ target, targets r.cell = some target → P target) :
    P schema := by
  induction h with
  | root => exact hroot
  | part _ hp ih => exact hpart _ ih _ hp
  | target _ ht ih => exact htarget _ ih _ ht

end Schema

/-- The schema that a child has to meet. -/
def Child.schema : Child → Schema
  | .present _ schema _ => schema
  | .absent _ schema => schema

/-- A declared field is asked for with its own schema. -/
theorem Child.schema_ofField (entries : List (String × Json)) (field : Field Schema) :
    (Child.ofField entries field).schema = field.schema := by
  unfold Child.ofField
  split <;> rfl

/-- What the items of a list have to meet occurs in the graph. -/
theorem Schema.Reaches.itemSchema {targets : Targets} {root schema element : Schema}
    (h : Reaches targets root schema) (he : schema.itemSchema? = some element) :
    Reaches targets root element := by
  cases schema with
  | list inner =>
    cases he
    exact h.part (List.mem_singleton_self _)
  | json =>
    cases he
    exact h
  | _ => simp [Schema.itemSchema?] at he

/-- What the values of an object have to meet occurs in the graph. -/
theorem Schema.Reaches.entrySchema {targets : Targets} {root schema entry : Schema}
    (h : Reaches targets root schema) (he : schema.entrySchema? = some entry) :
    Reaches targets root entry := by
  cases schema with
  | record inner =>
    cases he
    exact h.part (List.mem_singleton_self _)
  | json =>
    cases he
    exact h
  | _ => simp [Schema.entrySchema?] at he

/-- What a declared field has to meet occurs in the graph. -/
theorem Schema.Reaches.field {targets : Targets} {root schema : Schema}
    {fields : List (Field Schema)} {field : Field Schema} (h : Reaches targets root schema)
    (hf : schema.fields? = some fields) (hm : field ∈ fields) :
    Reaches targets root field.schema := by
  cases schema with
  | struct | object =>
    cases hf
    exact h.part (List.mem_map_of_mem hm)
  | _ => simp [Schema.fields?] at hf

/-- What a container asks of its children occurs in the graph of its schema. -/
theorem Schema.Reaches.child {targets : Targets} {root schema : Schema} {value : Json}
    {children : List Child} {assemble : List (Option Json) → Json} {child : Child}
    (h : Reaches targets root schema) (hview : Container schema value children assemble)
    (hc : child ∈ children) : Reaches targets root child.schema := by
  cases hview with
  | items he =>
    obtain ⟨segment, item, _, rfl⟩ := Child.exists_of_mem_ofItems hc
    exact h.itemSchema he
  | entries he =>
    obtain ⟨entry, _, rfl⟩ := List.mem_map.mp hc
    exact h.entrySchema he
  | fields hf =>
    obtain ⟨field, hm, rfl⟩ := List.mem_map.mp hc
    rw [Child.schema_ofField]
    exact h.field hf hm

end Conformance
