import Conformance.Entries
import Conformance.Schema

/-!
# Stores of cells

A store holds the schemas behind references. A cell is filled at most once:
either by its resolver, which runs when a reference is first followed, or
when the recursive definition of the cell is complete. A cell that no kept
schema holds any more is released, and a mention of it then leads nowhere.

The resolvers here follow no cell while they run. `Store.Procedures` has such
as do, and the stores of this module describe them.
-/

namespace Conformance

/-- What a pending cell does when it is first followed. -/
inductive Resolver where
  /-- Gives a fixed schema; a run may be counted under a name. -/
  | constant (schema : Schema) (counter : Option String)
  /-- Gives the schema that is bound to a name at that moment. -/
  | binding (name : String)

/-- The state of a cell. -/
inductive Cell where
  /-- Not followed yet. -/
  | pending (resolver : Resolver)
  /-- Reserved for a definition that is not complete. -/
  | undefined
  /-- Filled, once and for all. -/
  | filled (schema : Schema)
  /-- No longer held by anything. -/
  | released

/-- A run of a resolver. -/
structure Run where
  /-- The cell that the run filled. -/
  cell : CellId
  /-- The name under which the run counts, if it counts. -/
  counter : Option String
  deriving DecidableEq

/-- The cells behind references, with the schemas that are bound to names. -/
structure Store where
  /-- The state of every cell. -/
  cells : CellId → Cell
  /-- The cells from here on are unused. -/
  size : Nat
  /-- The bound schemas. -/
  bindings : List (String × Schema)
  /-- The runs of resolvers, in order. -/
  runs : List Run

namespace Resolver

/-- The name under which a run counts, if it counts. -/
def counter : Resolver → Option String
  | .constant _ counter => counter
  | .binding name => some name

/-- The schema that a resolver gives under the present bindings; a name that is
not bound gives a literal that says so. -/
def schema (bindings : List (String × Schema)) : Resolver → Schema
  | .constant schema _ => schema
  | .binding name =>
    (Entries.lookup name bindings).getD (.literal (.string ("<unbound " ++ name ++ ">")))

end Resolver

namespace Store

/-- The store without cells and bindings. -/
def empty : Store := ⟨fun _ => .released, 0, [], []⟩

/-- The store with another state of one cell. -/
def setCell (store : Store) (cell : CellId) (state : Cell) : Store :=
  { store with cells := fun c => if c = cell then state else store.cells c }

/-- A store with one more cell, and the name of that cell. -/
def allocate (store : Store) (state : Cell) : CellId × Store :=
  (store.size, { store.setCell store.size state with size := store.size + 1 })

/-- The schema that following a cell gives, run or not. -/
def target? (store : Store) (cell : CellId) : Option Schema :=
  match store.cells cell with
  | .filled schema => some schema
  | .pending resolver => some (resolver.schema store.bindings)
  | _ => none

/-- The schema that already lies in a cell. No resolver runs. -/
def peek? (store : Store) (cell : CellId) : Option Schema :=
  match store.cells cell with
  | .filled schema => some schema
  | _ => none

/-- Fills a pending cell by running its resolver. -/
def runResolver (store : Store) (cell : CellId) (resolver : Resolver) : Store :=
  { store.setCell cell (.filled (resolver.schema store.bindings)) with
    runs := store.runs ++ [⟨cell, resolver.counter⟩] }

/-- Follows a cell; a pending one runs its resolver and is filled from then on. -/
def fetch? (cell : CellId) : StateM Store (Option Schema) := fun store =>
  match store.cells cell with
  | .pending resolver =>
    (some (resolver.schema store.bindings), store.runResolver cell resolver)
  | _ => (store.peek? cell, store)

/-- Following a cell gives its target. -/
theorem fetch?_fst (store : Store) (cell : CellId) :
    (fetch? cell store).1 = store.target? cell := by
  unfold fetch? target?
  cases h : store.cells cell <;> simp [peek?, h]

/-- Following a cell leaves its target in it. -/
theorem peek?_fetch? (store : Store) (cell : CellId) :
    (fetch? cell store).2.peek? cell = store.target? cell := by
  unfold fetch? target?
  cases h : store.cells cell <;> simp [peek?, runResolver, setCell, h]

/-- Following a cell changes the target of none. -/
theorem target?_fetch? (store : Store) (cell other : CellId) :
    (fetch? cell store).2.target? other = store.target? other := by
  unfold fetch?
  cases h : store.cells cell with
  | pending resolver =>
    by_cases ho : other = cell
    · subst ho
      simp [target?, runResolver, setCell, h]
    · simp [target?, runResolver, setCell, ho]
  | _ => rfl

/-- The schema bound to a name. -/
def bound? (store : Store) (name : String) : Option Schema :=
  Entries.lookup name store.bindings

/-- Binds a schema to a name. -/
def bind (store : Store) (name : String) (schema : Schema) : Store :=
  { store with bindings := Entries.insert name schema store.bindings }

/-- Removes the binding of a name. -/
def unbind (store : Store) (name : String) : Store :=
  { store with bindings := Entries.erase name store.bindings }

/-- How often resolvers ran, for each name under which runs count. -/
def runCounts (store : Store) : List (String × Nat) :=
  (store.runs.filterMap Run.counter).foldl
    (fun counts name => Entries.insert name ((Entries.lookup name counts).getD 0 + 1) counts) []

end Store

namespace Reference

/-- Whether a reference keeps its cell alive. -/
def isStrong (r : Reference) : Bool := r.hold ≠ .back

/-- The state of a reference as text. -/
def describe (store : Store) (r : Reference) : String :=
  let hold := match r.hold with
    | .thunk => "thunk"
    | .owner => "owned"
    | .back => "back"
  let resolved := if (store.peek? r.cell).isSome then "true" else "false"
  "Deferred \x7b kind: \"" ++ hold ++ "\", resolved: " ++ resolved ++ " \x7d"

end Reference

end Conformance
