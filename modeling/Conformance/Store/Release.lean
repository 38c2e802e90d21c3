import Conformance.Store

/-!
# Releasing cells that nothing holds

A cell is held by the strong references in kept schemas, in bindings, and in
the schemas of held cells. Cells that hold one another in a circle stay
held. A sweep releases the others, again and again until none is left.
-/

namespace Conformance

mutual

/-- The cells that a schema holds by strong references. -/
def Schema.heldCells : Schema → List CellId
  | .leaf _ | .json | .any => []
  | .list s | .nullable s | .record s => s.heldCells
  | .struct fields => heldByFields fields
  | .object _ fields => heldByFields fields
  | .union members => heldByMembers members
  | .intersection members => heldByMembers members
  | .reference r => if r.isStrong then [r.cell] else []

/-- The cells that the schemas of fields hold. -/
def heldByFields : List (Field Schema) → List CellId
  | [] => []
  | ⟨_, schema, _, _⟩ :: rest => schema.heldCells ++ heldByFields rest

/-- The cells that members hold. -/
def heldByMembers : List Schema → List CellId
  | [] => []
  | schema :: rest => schema.heldCells ++ heldByMembers rest

end

/-- The cells that the state of a cell holds. -/
def Cell.heldCells : Cell → List CellId
  | .pending (.constant schema _) => schema.heldCells
  | .filled schema => schema.heldCells
  | _ => []

namespace Store

/-- The cells of the store, first to last. -/
def cellIds (store : Store) : List CellId := List.range store.size

/-- Whether a cell has been released. -/
def isReleased (store : Store) (cell : CellId) : Bool :=
  match store.cells cell with
  | .released => true
  | _ => false

/-- The cells held by kept schemas, by bindings and by other cells. -/
def heldCells (store : Store) (kept : List Schema) : List CellId :=
  heldByMembers kept ++ heldByMembers (store.bindings.map Prod.snd)
    ++ store.cellIds.flatMap fun cell => (store.cells cell).heldCells

/-- The cells to release: those in use that nothing holds. -/
def unheldCells (store : Store) (kept : List Schema) : List CellId :=
  let held := store.heldCells kept
  store.cellIds.filter fun cell => !store.isReleased cell && !held.contains cell

/-- Releases cells. -/
def release (store : Store) (cells : List CellId) : Store :=
  { store with cells := fun c => if cells.contains c then .released else store.cells c }

/-- Releases unheld cells round by round, for at most the given rounds. -/
def sweepRounds (kept : List Schema) : Nat → Store → Store
  | 0, store => store
  | rounds + 1, store =>
    match store.unheldCells kept with
    | [] => store
    | cells => sweepRounds kept rounds (store.release cells)

/-- Releases every cell that nothing holds. Each round but the last releases a
cell, so the number of cells bounds the rounds. -/
def sweep (store : Store) (kept : List Schema) : Store :=
  sweepRounds kept store.size store

end Store

end Conformance
