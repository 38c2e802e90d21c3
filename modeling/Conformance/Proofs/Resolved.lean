import Conformance.Proofs.Absence

/-!
# Graphs in which nothing is left to resolve

Once every reference of a graph has been followed, or is known to lead nowhere, following
one more reads its cell and changes nothing, and neither does the question whether a schema
accepts absence.
-/

namespace Conformance

/-- Following a cell with nothing left to resolve only reads it. -/
theorem Store.fetch?_of_peek? {store : Store} {cell : CellId}
    (h : store.peek? cell = store.target? cell) :
    Store.fetch? cell store = (store.target? cell, store) := by
  unfold Store.fetch?
  unfold Store.peek? Store.target? at h
  cases hcell : store.cells cell with
  | pending resolver =>
    rw [hcell] at h
    cases h
  | undefined | filled | released => simp [Store.peek?, Store.target?, hcell]

/-- A session reads a cell with nothing left to resolve and stays as it is. -/
theorem Session.onStore_fetch?_of_peek? {session : Session} {cell : CellId}
    (h : session.store.peek? cell = session.store.target? cell) :
    Session.onStore (Store.fetch? cell) session = (session.store.target? cell, session) := by
  rw [Session.onStore, Store.fetch?_of_peek? h]

namespace Schema

/-- No reference in the graph of a schema has a resolver that has not run. -/
def Resolved (store : Store) (root : Schema) : Prop :=
  ∀ r, Reaches store.target? root (.reference r) → store.peek? r.cell = store.target? r.cell

/-- A question that leaves the store as it is. -/
def Quiet (store : Store) (ask : StateM Store Bool) : Prop := (ask store).2 = store

/-- A question that depends on the answer to another one is quiet if both are. -/
theorem Quiet.cond {store : Store} {ask yes no : StateM Store Bool} (h : Quiet store ask)
    (hyes : Quiet store yes) (hno : Quiet store no) :
    Quiet store (do if ← ask then yes else no) := by
  have hask : ask store = ((ask store).1, store) := Prod.ext rfl h
  unfold Quiet
  simp only [bind, StateT.bind]
  rw [hask]
  cases (ask store).1 with
  | true => exact hyes
  | false => exact hno

/-- Every function of the question is quiet in the graph of a schema. -/
def quieting (store : Store) (root : Schema) : AbsenceWalk where
  ofSchema entered schema := Reaches store.target? root schema →
    Quiet store (acceptsAbsentWithin entered schema)
  ofAny entered members := (∀ member ∈ members, Reaches store.target? root member) →
    Quiet store (anyAcceptsAbsent entered members)
  ofAll entered members := (∀ member ∈ members, Reaches store.target? root member) →
    Quiet store (allAcceptAbsent entered members)

theorem quieting_inductive {store : Store} {root : Schema} (h : root.Resolved store) :
    (quieting store root).Inductive where
  nullable entered inner _ := by
    rw [acceptsAbsentWithin]
    rfl
  any entered _ := by
    rw [acceptsAbsentWithin]
    rfl
  union entered members ih hr := by
    rw [acceptsAbsentWithin]
    exact ih fun member hm => hr.part hm
  intersection entered members ih hr := by
    rw [acceptsAbsentWithin]
    exact ih fun member hm => hr.part hm
  followed entered r henter ih hr := by
    rw [acceptsAbsentWithin, if_pos henter]
    unfold Quiet
    simp only [bind, StateT.bind]
    rw [Store.fetch?_of_peek? (h r hr)]
    cases ht : store.target? r.cell with
    | none => rfl
    | some target => exact ih target (hr.target ht)
  blocked entered r henter _ := by
    rw [acceptsAbsentWithin, if_neg henter]
    rfl
  value entered schema hvalue _ := by
    rw [acceptsAbsentWithin_of_needsValue hvalue]
    rfl
  anyDone entered _ := by
    rw [anyAcceptsAbsent]
    rfl
  anyMore entered member rest ihm ihr hr := by
    obtain ⟨hfirst, hrest⟩ := List.forall_mem_cons.mp hr
    rw [anyAcceptsAbsent]
    exact .cond (ihm hfirst) rfl (ihr hrest)
  allDone entered _ := by
    rw [allAcceptAbsent]
    rfl
  allMore entered member rest ihm ihr hr := by
    obtain ⟨hfirst, hrest⟩ := List.forall_mem_cons.mp hr
    rw [allAcceptAbsent]
    exact .cond (ihm hfirst) (ihr hrest) rfl

/-- Where nothing is left to resolve, a session reads off the graph whether a schema accepts
absence, and stays as it is. -/
theorem Resolved.onStore_acceptsAbsent {session : Session} {root schema : Schema}
    (h : root.Resolved session.store) (hr : Reaches session.store.target? root schema) :
    Session.onStore schema.acceptsAbsent session =
      (schema.absentWithin session.store.target? [], session) := by
  have hquiet : (schema.acceptsAbsent session.store).2 = session.store :=
    (quieting_inductive h).holds [] schema hr
  have hrun : schema.acceptsAbsent session.store =
      (schema.absentWithin session.store.target? [], session.store) :=
    Prod.ext (acceptsAbsent_fst schema session.store) hquiet
  rw [Session.onStore, hrun]

end Schema

end Conformance
