import Conformance.Store

/-!
# Type expressions

The text of a schema as a type expression. Unions and intersections stand in
parentheses inside each other. A reference shows the name of the object type
that already lies in its cell, and no resolver runs.
-/

namespace Conformance

/-- The text of a leaf in type expressions. -/
def Leaf.render : Leaf → String
  | .number => "Number"
  | .int => "Int"
  | .float => "Float"
  | .string => "String"
  | .boolean => "Boolean"
  | .id => "ID"
  | .literal value => value.render

/-- The text of a reference in type expressions. -/
def Reference.render (store : Store) (r : Reference) : String :=
  match store.peek? r.cell with
  | some (.object name _) => name
  | _ => "<deferred>"

namespace Schema

/-- Whether a member of a union or intersection stands in parentheses. -/
def needsParentheses : Schema → Bool
  | .union _ | .intersection _ => true
  | _ => false

/-- Puts the text of a member in parentheses where they are needed. -/
def parenthesize (member : Schema) (text : String) : String :=
  if member.needsParentheses then "(" ++ text ++ ")" else text

mutual

/-- The text of a schema as a type expression. -/
def render (store : Store) : Schema → String
  | .leaf k => k.render
  | .list element => "List<" ++ render store element ++ ">"
  | .nullable inner => "Nullable<" ++ render store inner ++ ">"
  | .struct fields =>
    if fields.isEmpty then "\x7b\x7d" else "\x7b " ++ renderFields store fields ++ " \x7d"
  | .object name _ => name
  | .union members => renderMembers store " | " members
  | .intersection members => renderMembers store " & " members
  | .record entry => "Record<" ++ render store entry ++ ">"
  | .json => "Json"
  | .any => "Any"
  | .reference r => r.render store

/-- The texts of fields, with commas between them. -/
def renderFields (store : Store) : List (Field Schema) → String
  | [] => ""
  | [⟨name, schema, _, _⟩] => name ++ ": " ++ render store schema
  | ⟨name, schema, _, _⟩ :: rest =>
    name ++ ": " ++ render store schema ++ ", " ++ renderFields store rest

/-- The texts of members, with a separator between them. -/
def renderMembers (store : Store) (separator : String) : List Schema → String
  | [] => ""
  | [member] => parenthesize member (render store member)
  | member :: rest =>
    parenthesize member (render store member) ++ separator ++ renderMembers store separator rest

end

variable {store later : Store}

/-- Fields show the same in two stores if the schema of each of them does. -/
theorem renderFields_congr {fields : List (Field Schema)}
    (h : ∀ field ∈ fields, field.schema.render store = field.schema.render later) :
    renderFields store fields = renderFields later fields := by
  induction fields with
  | nil => rfl
  | cons first others ih =>
    obtain ⟨hfirst, hothers⟩ := List.forall_mem_cons.mp h
    by_cases hlast : others = []
    · rw [hlast, renderFields, renderFields, hfirst]
    · rw [renderFields, renderFields, hfirst, ih hothers] <;> exact hlast

/-- Members show the same in two stores if each of them does. -/
theorem renderMembers_congr (separator : String) {members : List Schema}
    (h : ∀ member ∈ members, member.render store = member.render later) :
    renderMembers store separator members = renderMembers later separator members := by
  induction members with
  | nil => rfl
  | cons first others ih =>
    obtain ⟨hfirst, hothers⟩ := List.forall_mem_cons.mp h
    by_cases hlast : others = []
    · rw [hlast, renderMembers, renderMembers, hfirst]
    · rw [renderMembers, renderMembers, hfirst, ih hothers] <;> exact hlast

end Schema

end Conformance
