import Conformance.Store

/-!
# Resolution and absence

Following references to a concrete schema, and the schemas of fields that may
be absent. Both follow a bounded number of references; meeting a reference
again that is being followed is a cycle, and a cycle never accepts absence.
-/

namespace Conformance

/-- The bound on references that are followed at one place. -/
def maxHops : Nat := 32

namespace Schema

/-- Follows references while fewer than `hops` have been looked at. -/
def resolveWithin? : Nat → Schema → StateM Store (Option Schema)
  | 0, _ => pure none
  | hops + 1, .reference r => do
    match ← Store.fetch? r.cell with
    | some target => resolveWithin? hops target
    | none => pure none
  | _ + 1, concrete => pure (some concrete)

/-- The first schema that is no reference; none for a reference that leads
nowhere or a chain that does not end within the bound. -/
def resolve? (schema : Schema) : StateM Store (Option Schema) :=
  resolveWithin? maxHops schema

mutual

/-- Whether a schema accepts absence, while the references through the cells in
`entered` are being followed. -/
def acceptsAbsentWithin (entered : List CellId) (schema : Schema) : StateM Store Bool :=
  match schema with
  | .nullable _ | .any => pure true
  | .union members => anyAcceptsAbsent entered members
  | .intersection members => allAcceptAbsent entered members
  | .reference r =>
    if entered.length < maxHops ∧ r.cell ∉ entered then do
      match ← Store.fetch? r.cell with
      | some target => acceptsAbsentWithin (r.cell :: entered) target
      | none => pure false
    else pure false
  | _ => pure false
termination_by (maxHops - entered.length, sizeOf schema)
decreasing_by
  · decreasing_tactic
  · decreasing_tactic
  · next h =>
    refine .left _ _ ?_
    rw [List.length_cons]
    omega

/-- Whether some member accepts absence; the first that does ends the search. -/
def anyAcceptsAbsent (entered : List CellId) (members : List Schema) : StateM Store Bool :=
  match members with
  | [] => pure false
  | member :: rest => do
    if ← acceptsAbsentWithin entered member then pure true
    else anyAcceptsAbsent entered rest
termination_by (maxHops - entered.length, sizeOf members)

/-- Whether all members accept absence; the first that does not ends the
search. -/
def allAcceptAbsent (entered : List CellId) (members : List Schema) : StateM Store Bool :=
  match members with
  | [] => pure true
  | member :: rest => do
    if ← acceptsAbsentWithin entered member then allAcceptAbsent entered rest
    else pure false
termination_by (maxHops - entered.length, sizeOf members)

end

/-- Whether a field with this schema may be absent. -/
def acceptsAbsent (schema : Schema) : StateM Store Bool := acceptsAbsentWithin [] schema

end Schema

end Conformance
