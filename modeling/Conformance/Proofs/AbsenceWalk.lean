import Conformance.Schema.Absence

/-!
# The question for absence, step by step

Three functions ask each other whether absence is accepted: of a schema, of some member and
of all members. An `AbsenceWalk` states one property for each of them. `AbsenceWalk.Inductive`
collects what has to be shown of one step, with a name for each kind of schema, and
`AbsenceWalk.Inductive.holds` gives the property of every question.
-/

namespace Conformance

/-- Whether only a value can meet a schema: it accepts absence nowhere. -/
def Schema.needsValue : Schema → Bool
  | .leaf _ | .list _ | .struct _ | .object _ _ | .record _ | .json => true
  | .nullable _ | .union _ | .intersection _ | .any | .reference _ => false

/-- A schema that only a value can meet does not accept absence. -/
theorem Schema.acceptsAbsentWithin_of_needsValue {schema : Schema} (h : schema.needsValue)
    (entered : List CellId) : schema.acceptsAbsentWithin entered = pure false := by
  cases schema with
  | nullable | union | intersection | any | reference => cases h
  | leaf | list | struct | object | record | json => simp only [acceptsAbsentWithin]

/-- One property for each of the three functions that ask whether absence is accepted. -/
structure AbsenceWalk where
  /-- Said of the question for a schema, while references are being followed. -/
  ofSchema : List CellId → Schema → Prop
  /-- Said of the search for a member that accepts absence. -/
  ofAny : List CellId → List Schema → Prop
  /-- Said of the demand on all members. -/
  ofAll : List CellId → List Schema → Prop

/-- Every step of the question carries the properties from the questions that it asks. -/
structure AbsenceWalk.Inductive (walk : AbsenceWalk) : Prop where
  nullable : ∀ entered inner, walk.ofSchema entered (.nullable inner)
  any : ∀ entered, walk.ofSchema entered .any
  union : ∀ entered members, walk.ofAny entered members →
    walk.ofSchema entered (.union members)
  intersection : ∀ entered members, walk.ofAll entered members →
    walk.ofSchema entered (.intersection members)
  followed : ∀ entered (r : Reference), entered.length < maxHops ∧ r.cell ∉ entered →
    (∀ target, walk.ofSchema (r.cell :: entered) target) →
    walk.ofSchema entered (.reference r)
  blocked : ∀ entered (r : Reference), ¬(entered.length < maxHops ∧ r.cell ∉ entered) →
    walk.ofSchema entered (.reference r)
  value : ∀ entered (schema : Schema), schema.needsValue → walk.ofSchema entered schema
  anyDone : ∀ entered, walk.ofAny entered []
  anyMore : ∀ entered member rest, walk.ofSchema entered member → walk.ofAny entered rest →
    walk.ofAny entered (member :: rest)
  allDone : ∀ entered, walk.ofAll entered []
  allMore : ∀ entered member rest, walk.ofSchema entered member → walk.ofAll entered rest →
    walk.ofAll entered (member :: rest)

/-- What every step carries holds of every question. -/
theorem AbsenceWalk.Inductive.holds {walk : AbsenceWalk} (step : walk.Inductive)
    (entered : List CellId) (schema : Schema) : walk.ofSchema entered schema := by
  apply Schema.acceptsAbsentWithin.induct walk.ofSchema walk.ofAll walk.ofAny
  case case1 => exact step.nullable
  case case2 => exact step.any
  case case3 => exact step.union
  case case4 => exact step.intersection
  case case5 => exact step.followed
  case case6 => exact step.blocked
  case case7 =>
    intro entered schema hnullable hany hunion hintersection hreference
    refine step.value entered schema ?_
    cases schema with
    | nullable inner => exact absurd rfl (hnullable inner)
    | any => exact absurd rfl hany
    | union members => exact absurd rfl (hunion members)
    | intersection members => exact absurd rfl (hintersection members)
    | reference r => exact absurd rfl (hreference r)
    | leaf | list | struct | object | record | json => rfl
  case case8 => exact step.allDone
  case case9 => exact step.allMore
  case case10 => exact step.anyDone
  case case11 => exact step.anyMore

end Conformance
