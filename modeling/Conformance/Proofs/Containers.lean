import Conformance.Check.View

/-!
# Ways to take a container apart

A structural schema goes by its view of the value. A container is taken apart
in one of three ways, into its items, its entries or its declared fields; the
schema decides which, and a value of another kind is refused.
-/

namespace Conformance

/-- Whether the value alone decides how a schema goes on: a container schema, or
one that accepts anything. -/
def Schema.isStructural : Schema → Bool
  | .list _ | .struct _ | .object _ _ | .record _ | .json | .any => true
  | _ => false

/-- A schema that is none of the others is structural. -/
theorem Schema.isStructural_of_ne {schema : Schema} (hleaf : ∀ leaf, schema ≠ .leaf leaf)
    (hnullable : ∀ inner, schema ≠ .nullable inner) (hunion : ∀ members, schema ≠ .union members)
    (hintersection : ∀ members, schema ≠ .intersection members)
    (hreference : ∀ r, schema ≠ .reference r) : schema.isStructural := by
  cases schema with
  | leaf kind => exact absurd rfl (hleaf kind)
  | nullable inner => exact absurd rfl (hnullable inner)
  | union members => exact absurd rfl (hunion members)
  | intersection members => exact absurd rfl (hintersection members)
  | reference r => exact absurd rfl (hreference r)
  | list _ | struct _ | object _ _ | record _ | json | any => rfl

/-- Only a structural schema looks into a value. -/
theorem View.isStructural_of_ne_plain {schema : Schema} {value : Json}
    (h : View.of schema value ≠ .plain) : schema.isStructural := by
  cases schema with
  | leaf kind => cases value <;> exact absurd rfl h
  | nullable inner => cases value <;> exact absurd rfl h
  | union members => cases value <;> exact absurd rfl h
  | intersection members => cases value <;> exact absurd rfl h
  | reference r => cases value <;> exact absurd rfl h
  | list _ | struct _ | object _ _ | record _ | json | any => rfl

/-- What every item of a list has to meet, for the schemas that say so. -/
def Schema.itemSchema? : Schema → Option Schema
  | .list element => some element
  | .json => some .json
  | _ => none

/-- What every value of an object has to meet, for the schemas that say so. -/
def Schema.entrySchema? : Schema → Option Schema
  | .record entry => some entry
  | .json => some .json
  | _ => none

/-- The three ways to take a container apart: by its items, by its entries, and by
declared fields. -/
inductive Container (schema : Schema) : Json → List Child → (List (Option Json) → Json) → Prop
  /-- A list whose items all meet one schema. -/
  | items {element : Schema} {items : List Json} (h : schema.itemSchema? = some element) :
    Container schema (.array items) (Child.ofItems element 0 items)
      fun outputs => .array (outputs.filterMap fun output => output)
  /-- An object whose values all meet one schema. -/
  | entries {entry : Schema} {entries : List (String × Json)}
    (h : schema.entrySchema? = some entry) :
    Container schema (.object entries) (Child.ofEntries entry entries)
      fun outputs => .object (nameOutputs (entries.map Prod.fst) outputs)
  /-- An object of which the declared fields count. -/
  | fields {fields : List (Field Schema)} {entries : List (String × Json)}
    (h : schema.fields? = some fields) :
    Container schema (.object entries) (fields.map (Child.ofField entries))
      fun outputs => .object (nameOutputs (fields.map Field.name) outputs)

/-- The children that a view shows are those of the container. -/
theorem View.container_of {schema : Schema} {value : Json} {children : List Child}
    {assemble : List (Option Json) → Json} {smaller : Child.nestingAll children < value.nesting}
    (h : View.of schema value = .container children assemble smaller) :
    Container schema value children assemble := by
  unfold View.of at h
  split at h
  · cases h; exact .items rfl
  · cases h
  · cases h; exact .fields rfl
  · cases h
  · cases h; exact .fields rfl
  · cases h
  · cases h; exact .entries rfl
  · cases h
  · cases h; exact .items rfl
  · cases h; exact .entries rfl
  · cases h

/-- The view of a container shows its children. -/
theorem View.of_container {schema : Schema} {value : Json} {children : List Child}
    {assemble : List (Option Json) → Json} (h : Container schema value children assemble) :
    ∃ smaller, View.of schema value = .container children assemble smaller := by
  cases h with
  | items he =>
    cases schema with
    | list | json => cases he; exact ⟨_, rfl⟩
    | _ => cases he
  | entries he =>
    cases schema with
    | record | json => cases he; exact ⟨_, rfl⟩
    | _ => cases he
  | fields hf =>
    cases schema with
    | struct | object => cases hf; exact ⟨_, rfl⟩
    | _ => cases hf

/-- A view refuses values that are not of the kind it expects, and it expects lists
or objects. -/
theorem View.mismatch_of {schema : Schema} {value : Json} {expected : String}
    (h : View.of schema value = .mismatch expected) :
    (expected = "list" ∨ expected = "object") ∧ value.kind ≠ expected := by
  cases schema with
  | list | struct | object | record =>
    cases value <;> cases h <;> simp [Json.kind]
  | json => cases value <;> cases h
  | _ => cases h

/-- Without anything to look into, a structural schema is met by any value or meets a
scalar. -/
theorem View.plain_of {schema : Schema} {value : Json} (hs : schema.isStructural)
    (h : View.of schema value = .plain) :
    schema = .any ∨ schema = .json ∧ value.nesting = 0 := by
  cases schema with
  | any => exact .inl rfl
  | json =>
    cases value with
    | array | object => cases h
    | _ => exact .inr ⟨rfl, by simp [Json.nesting]⟩
  | list | struct | object | record => cases value <;> cases h
  | leaf | nullable | union | intersection | reference => simp [Schema.isStructural] at hs

/-- The children of a list are its items with their positions. -/
theorem Child.ofItems_eq (schema : Schema) (items : List Json) (position : Nat) :
    Child.ofItems schema position items =
      (items.zipIdx position).map fun item => .present (.index item.2) schema item.1 := by
  induction items generalizing position with
  | nil => rfl
  | cons item rest ih => rw [List.zipIdx_cons, List.map_cons, ← ih, Child.ofItems]

/-- The item at a position of a list is a child of it there. -/
theorem Child.mem_ofItems_of_getElem? (schema : Schema) {items : List Json} {item : Json} {i : Nat}
    (h : items[i]? = some item) (position : Nat) :
    Child.present (.index (position + i)) schema item ∈ Child.ofItems schema position items := by
  induction items generalizing i position with
  | nil => cases h
  | cons first rest ih =>
    cases i with
    | zero =>
      cases h
      exact List.mem_cons_self
    | succ i =>
      have hi := ih h (position + 1)
      rw [Nat.add_right_comm] at hi
      exact List.mem_cons_of_mem _ hi

/-- Every item of a list is a child of it. -/
theorem Child.exists_mem_ofItems (schema : Schema) {items : List Json} {item : Json}
    (h : item ∈ items) :
    ∃ segment, Child.present segment schema item ∈ Child.ofItems schema 0 items := by
  obtain ⟨i, hi⟩ := List.mem_iff_getElem?.mp h
  exact ⟨_, Child.mem_ofItems_of_getElem? schema hi 0⟩

/-- Every child of a list is one of its items. -/
theorem Child.exists_of_mem_ofItems {schema : Schema} {items : List Json} {child : Child}
    {position : Nat} (h : child ∈ Child.ofItems schema position items) :
    ∃ segment, ∃ item ∈ items, child = .present segment schema item := by
  induction items generalizing position with
  | nil => cases h
  | cons first rest ih =>
    rcases List.mem_cons.mp h with rfl | h
    · exact ⟨.index position, first, List.mem_cons_self, rfl⟩
    · obtain ⟨segment, item, hi, rfl⟩ := ih h
      exact ⟨segment, item, List.mem_cons_of_mem _ hi, rfl⟩

/-- Each child nests no more deeply than the row. -/
theorem Child.nesting_le_nestingAll {children : List Child} {child : Child} (h : child ∈ children) :
    child.nesting ≤ Child.nestingAll children := by
  induction children with
  | nil => cases h
  | cons first rest ih =>
    rw [Child.nestingAll]
    rcases List.mem_cons.mp h with rfl | h
    · exact Nat.le_max_left _ _
    · exact Nat.le_trans (ih h) (Nat.le_max_right _ _)

/-- Every child of a container nests less deeply than the container. -/
theorem Container.nesting_lt {schema : Schema} {value : Json} {children : List Child}
    {assemble : List (Option Json) → Json} {child : Child}
    (h : Container schema value children assemble) (hc : child ∈ children) :
    child.nesting < value.nesting := by
  obtain ⟨smaller, _⟩ := View.of_container h
  exact Nat.lt_of_le_of_lt (Child.nesting_le_nestingAll hc) smaller

/-- A container nests at least once. -/
theorem Container.nesting_pos {schema : Schema} {value : Json} {children : List Child}
    {assemble : List (Option Json) → Json} (h : Container schema value children assemble) :
    0 < value.nesting := by
  obtain ⟨smaller, _⟩ := View.of_container h
  exact Nat.zero_lt_of_lt smaller

end Conformance
