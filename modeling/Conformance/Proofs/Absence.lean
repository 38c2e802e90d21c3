import Conformance.Proofs.Graph
import Conformance.Proofs.AbsenceWalk

/-!
# Absence in a graph

Whether a schema accepts absence depends only on the graph: `absentWithin`
reads it off the targets of the cells, and running the question on a store
gives the same answer and leaves every cell leading where it did.
-/

namespace Conformance.Schema

mutual

/-- Whether a schema accepts absence in a graph, while the references through the
cells in `entered` are being followed. -/
def absentWithin (targets : Targets) (entered : List CellId) (schema : Schema) : Bool :=
  match schema with
  | .nullable _ | .any => true
  | .union members => anyAbsentWithin targets entered members
  | .intersection members => allAbsentWithin targets entered members
  | .reference r =>
    if entered.length < maxHops ∧ r.cell ∉ entered then
      match targets r.cell with
      | some target => absentWithin targets (r.cell :: entered) target
      | none => false
    else false
  | _ => false
termination_by (maxHops - entered.length, sizeOf schema)
decreasing_by
  · decreasing_tactic
  · decreasing_tactic
  · next h =>
    refine .left _ _ ?_
    rw [List.length_cons]
    omega

/-- Whether some member accepts absence in a graph. -/
def anyAbsentWithin (targets : Targets) (entered : List CellId) (members : List Schema) : Bool :=
  match members with
  | [] => false
  | member :: rest => absentWithin targets entered member || anyAbsentWithin targets entered rest
termination_by (maxHops - entered.length, sizeOf members)

/-- Whether all members accept absence in a graph. -/
def allAbsentWithin (targets : Targets) (entered : List CellId) (members : List Schema) : Bool :=
  match members with
  | [] => true
  | member :: rest => absentWithin targets entered member && allAbsentWithin targets entered rest
termination_by (maxHops - entered.length, sizeOf members)

end

/-- What a question to a store answers, when the answer is read off the graph and the
graph stays the same. -/
def Reads (ask : StateM Store Bool) (answer : Targets → Bool) : Prop :=
  ∀ store, ∃ later, ask store = (answer store.target?, later) ∧ later.target? = store.target?

/-- An answer that asks nothing. -/
theorem Reads.pure (answer : Bool) : Reads (pure answer) fun _ => answer :=
  fun store => ⟨store, rfl, rfl⟩

/-- A question that depends on the answer to another one. -/
theorem Reads.cond {ask yes no : StateM Store Bool} {answer onYes onNo : Targets → Bool}
    (h : Reads ask answer) (hyes : Reads yes onYes) (hno : Reads no onNo) :
    Reads (do if ← ask then yes else no)
      fun targets => bif answer targets then onYes targets else onNo targets := by
  intro store
  obtain ⟨between, hask, hb⟩ := h store
  cases ha : answer store.target? with
  | true =>
    obtain ⟨later, hl, ht⟩ := hyes between
    refine ⟨later, ?_, ht.trans hb⟩
    simp only [bind, StateT.bind, hask, ha, if_true, cond_true]
    rw [hl, hb]
  | false =>
    obtain ⟨later, hl, ht⟩ := hno between
    refine ⟨later, ?_, ht.trans hb⟩
    simp only [bind, StateT.bind, hask, ha, Bool.false_eq_true, if_false, cond_false]
    rw [hl, hb]

/-- A schema that only a value can meet accepts absence in no graph. -/
theorem absentWithin_of_needsValue {schema : Schema} (h : schema.needsValue) (targets : Targets)
    (entered : List CellId) : absentWithin targets entered schema = false := by
  cases schema with
  | nullable | union | intersection | any | reference => cases h
  | leaf | list | struct | object | record | json => simp only [absentWithin]

section References

variable {entered : List CellId} {r : Reference} {store later : Store}

/-- A reference that may be followed answers as the schema in its cell does. -/
theorem acceptsAbsentWithin_followed (h : entered.length < maxHops ∧ r.cell ∉ entered)
    {target : Schema} (hf : Store.fetch? r.cell store = (some target, later)) :
    acceptsAbsentWithin entered (.reference r) store =
      acceptsAbsentWithin (r.cell :: entered) target later := by
  rw [acceptsAbsentWithin, if_pos h]
  simp only [bind, StateT.bind, hf]

/-- A reference that leads nowhere does not accept absence. -/
theorem acceptsAbsentWithin_dangling (h : entered.length < maxHops ∧ r.cell ∉ entered)
    (hf : Store.fetch? r.cell store = (none, later)) :
    acceptsAbsentWithin entered (.reference r) store = (false, later) := by
  rw [acceptsAbsentWithin, if_pos h]
  simp only [bind, StateT.bind, hf]
  rfl

end References

/-- In every function of the question the answer can be read off the graph. -/
def reading : AbsenceWalk where
  ofSchema entered schema :=
    Reads (acceptsAbsentWithin entered schema) fun targets => absentWithin targets entered schema
  ofAny entered members :=
    Reads (anyAcceptsAbsent entered members) fun targets => anyAbsentWithin targets entered members
  ofAll entered members :=
    Reads (allAcceptAbsent entered members) fun targets => allAbsentWithin targets entered members

theorem reading_inductive : reading.Inductive where
  nullable entered inner := by
    simpa only [reading, acceptsAbsentWithin, absentWithin] using Reads.pure true
  any entered := by
    simpa only [reading, acceptsAbsentWithin, absentWithin] using Reads.pure true
  union entered members ih := by
    simpa only [reading, acceptsAbsentWithin, absentWithin] using ih
  intersection entered members ih := by
    simpa only [reading, acceptsAbsentWithin, absentWithin] using ih
  followed entered r h ih store := by
    have ht := Store.target?_fetch?_eq store r.cell
    have hf := Store.fetch?_fst store r.cell
    rcases hfetch : Store.fetch? r.cell store with ⟨found, between⟩
    rw [hfetch] at ht hf
    dsimp only at ht hf
    change ∃ later, acceptsAbsentWithin entered (.reference r) store =
      (absentWithin store.target? entered (.reference r), later) ∧ later.target? = store.target?
    rw [absentWithin, if_pos h, ← hf]
    cases found with
    | none => exact ⟨between, acceptsAbsentWithin_dangling h hfetch, ht⟩
    | some target =>
      obtain ⟨later, hl, htl⟩ := ih target between
      rw [ht] at hl
      exact ⟨later, (acceptsAbsentWithin_followed h hfetch).trans hl, htl.trans ht⟩
  blocked entered r h := by
    simpa only [reading, acceptsAbsentWithin, absentWithin, h, if_false] using Reads.pure false
  value entered schema h := by
    simpa only [reading, acceptsAbsentWithin_of_needsValue h, absentWithin_of_needsValue h] using
      Reads.pure false
  anyDone entered := by
    simpa only [reading, anyAcceptsAbsent, anyAbsentWithin] using Reads.pure false
  anyMore entered member rest ihm ihr := by
    have hmember : Reads (acceptsAbsentWithin entered member) fun targets =>
      absentWithin targets entered member := ihm
    have hrest : Reads (anyAcceptsAbsent entered rest) fun targets =>
      anyAbsentWithin targets entered rest := ihr
    simpa only [reading, anyAcceptsAbsent, anyAbsentWithin, Bool.cond_true_left] using
      hmember.cond (Reads.pure true) hrest
  allDone entered := by
    simpa only [reading, allAcceptAbsent, allAbsentWithin] using Reads.pure true
  allMore entered member rest ihm ihr := by
    have hmember : Reads (acceptsAbsentWithin entered member) fun targets =>
      absentWithin targets entered member := ihm
    have hrest : Reads (allAcceptAbsent entered rest) fun targets =>
      allAbsentWithin targets entered rest := ihr
    simpa only [reading, allAcceptAbsent, allAbsentWithin, Bool.cond_false_right] using
      hmember.cond hrest (Reads.pure false)

/-- Asking a store whether a schema accepts absence reads the answer off the
graph. -/
theorem reads_acceptsAbsentWithin (entered : List CellId) (schema : Schema) :
    Reads (acceptsAbsentWithin entered schema) fun targets =>
      absentWithin targets entered schema :=
  reading_inductive.holds entered schema

/-- Asking whether a field may be absent reads the answer off the graph. -/
theorem acceptsAbsent_fst (schema : Schema) (store : Store) :
    (schema.acceptsAbsent store).1 = schema.absentWithin store.target? [] := by
  obtain ⟨later, h, _⟩ := reads_acceptsAbsentWithin [] schema store
  rw [acceptsAbsent, h]

/-- A session answers whether a schema accepts absence from the graph, which stays the
same. -/
theorem onStore_acceptsAbsent (schema : Schema) (session : Session) :
    ∃ later : Session, Session.onStore schema.acceptsAbsent session =
        (schema.absentWithin session.store.target? [], later) ∧
      later.store.target? = session.store.target? := by
  obtain ⟨store, h, ht⟩ := reads_acceptsAbsentWithin [] schema session.store
  exact ⟨{ session with store }, by simp only [Session.onStore, acceptsAbsent, h], ht⟩

end Conformance.Schema
