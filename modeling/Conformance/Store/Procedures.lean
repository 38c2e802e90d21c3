import Conformance.Store

/-!
# Resolvers that follow references

A resolver may follow references itself while it runs, and what it gives may depend on what
they lead to. Until it has given a schema its cell is not filled, and a resolver that comes
to its own cell again, on whatever detour, waits for itself for ever. A budget bounds how
deeply runs are nested in one another.
-/

namespace Conformance

/-- What a resolver does until it gives a schema. -/
inductive Procedure where
  /-- It gives a schema. -/
  | give (schema : Schema)
  /-- It looks up a name and goes on with what is bound to it. -/
  | lookUp (name : String) (next : Option Schema → Procedure)
  /-- It follows a cell and goes on with what the cell leads to. -/
  | follow (cell : CellId) (next : Option Schema → Procedure)

namespace Procedure

/-- Runs a procedure, where cells are followed in some way. -/
def run (follow : CellId → StateT Store Option (Option Schema)) :
    Procedure → StateT Store Option Schema
  | .give schema => pure schema
  | .lookUp name next => do
    let store ← get
    (next (store.bound? name)).run follow
  | .follow cell next => do
    let found ← follow cell
    (next found).run follow

/-- What a procedure gives if cells lead to certain schemas. -/
def outcome (bindings : List (String × Schema)) (targets : CellId → Option Schema) :
    Procedure → Schema
  | .give schema => schema
  | .lookUp name next => (next (Entries.lookup name bindings)).outcome bindings targets
  | .follow cell next => (next (targets cell)).outcome bindings targets

/-- Whatever it finds, a procedure follows cells of a kind only. -/
def FollowsOnly (P : CellId → Prop) : Procedure → Prop
  | .give _ => True
  | .lookUp _ next => ∀ found, (next found).FollowsOnly P
  | .follow cell next => P cell ∧ ∀ found, (next found).FollowsOnly P

end Procedure

namespace Store

/-- Follows a cell where the resolvers of pending cells are procedures, some of which are
running already. There is no outcome if a procedure waits for itself, or if the budget of
nested runs is spent. -/
def followNested? (procedures : CellId → Procedure) :
    Nat → List CellId → CellId → StateT Store Option (Option Schema)
  | 0, _, _ => failure
  | budget + 1, running, cell => fun store =>
    match store.cells cell with
    | .pending resolver =>
      if cell ∈ running then none
      else do
        let nested := followNested? procedures budget (cell :: running)
        let (schema, later) ← (procedures cell).run nested store
        return (some schema, { later.setCell cell (.filled schema) with
          runs := later.runs ++ [⟨cell, resolver.counter⟩] })
    | _ => some (store.peek? cell, store)

end Store

end Conformance
