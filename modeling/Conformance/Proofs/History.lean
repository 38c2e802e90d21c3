import Conformance.Proofs.Abreast
import Conformance.Proofs.Holding

/-!
# Validation does not depend on history

Between two validations a session may see many operations on the schemas of its store: they
fill cells, in any order, and may release those that nothing holds. None of them changes
what the graph of a held schema is. So a value has the same outcome at any later time; only
the type expressions in a report can tell which cells were filled.
-/

namespace Conformance

/-- What may happen to a session between two validations. -/
inductive Operation where
  /-- A value is validated. -/
  | validate (validator : Validator) (value : Json)
  /-- It is asked whether a schema accepts absence. -/
  | acceptsAbsent (schema : Schema)
  /-- A schema is resolved to the first that is no reference. -/
  | resolve (schema : Schema)
  /-- A reference is followed. -/
  | follow (r : Reference)
  /-- The schema that already lies behind a reference is read. -/
  | peek (r : Reference)
  /-- It is asked whether a schema already lies behind a reference. -/
  | isResolved (r : Reference)
  /-- The type expression of a schema is written. -/
  | display (schema : Schema)
  /-- Cells that nothing holds are released; these schemas are kept. -/
  | release (kept : List Schema)

/-- What an operation gives. -/
inductive Reply where
  /-- The outcome of a validation. -/
  | outcome (outcome : Outcome)
  /-- The answer to a question. -/
  | answer (yes : Bool)
  /-- The schema that was found, if one was. -/
  | found (schema : Option Schema)
  /-- A type expression. -/
  | text (text : String)
  /-- Nothing. -/
  | done

/-- Performs an operation. -/
def Operation.perform : Operation → StateM Session Reply
  | .validate validator value => return .outcome (← validator.validate value)
  | .acceptsAbsent schema => return .answer (← Session.onStore schema.acceptsAbsent)
  | .resolve schema => return .found (← Session.onStore schema.resolve?)
  | .follow r => return .found (← Session.onStore (Store.fetch? r.cell))
  | .peek r => return .found ((← get).store.peek? r.cell)
  | .isResolved r => return .answer ((← get).store.peek? r.cell).isSome
  | .display schema => return .text (schema.render (← get).store)
  | .release kept => do
    modify fun session => { session with store := session.store.sweep kept }
    return .done

/-- The session after a row of operations. -/
def Session.after (session : Session) : List Operation → Session
  | [] => session
  | operation :: rest => Session.after (operation.perform session).2 rest

/-- What history leaves of the graph of a schema: every reference leads where it led at the
start, and if the schema held its graph then, it still does. -/
structure Store.Preserves (root : Schema) (start later : Store) : Prop where
  /-- Every reference of the graph leads where it did. -/
  target : ∀ r, Schema.Reaches start.target? root (.reference r) →
    later.target? r.cell = start.target? r.cell
  /-- What was held in the graph still is. -/
  held : root.HoldsGraph start → ∀ r target, Schema.Reaches start.target? root (.reference r) →
    start.target? r.cell = some target → later.Holds root r.cell

section Preserves

variable {root : Schema} {start store later : Store}

/-- At the start nothing has changed. -/
theorem Store.Preserves.refl (root : Schema) (start : Store) : start.Preserves root start :=
  ⟨fun _ _ => rfl, id⟩

/-- Following cells preserves the graph. -/
theorem Store.Preserves.follows {P : CellId → Prop} (h : start.Preserves root store)
    (hfollows : store.Follows P later) : start.Preserves root later := by
  constructor
  · intro r hr
    rw [hfollows.target?, h.target r hr]
  · intro hgraph r target hr ht
    exact (h.held hgraph r target hr ht).follows hfollows

/-- A sweep that keeps the schema preserves the graph that it holds. -/
theorem Store.Preserves.sweep {kept : List Schema} (h : start.Preserves root store)
    (hk : root ∈ kept) (hgraph : root.HoldsGraph start) :
    start.Preserves root (store.sweep kept) := by
  constructor
  · intro r hr
    rw [← h.target r hr]
    cases ht : store.target? r.cell with
    | none => exact Store.target?_sweep_of_none kept ht
    | some target =>
      have hstart : start.target? r.cell = some target := by rw [← h.target r hr, ht]
      rw [(h.held hgraph r target hr hstart).target?_sweep hk, ht]
  · intro _ r target hr ht
    exact ((h.held hgraph r target hr ht).sweep hk).1

end Preserves

/-- An operation that releases nothing follows cells. -/
theorem Operation.follows_or_releases (operation : Operation) (session : Session) :
    session.store.Follows (fun _ => True) (operation.perform session).2.store ∨
      ∃ kept, operation = .release kept ∧
        (operation.perform session).2.store = session.store.sweep kept := by
  have hwithin : ∀ schema : Schema, schema.Within (fun _ => True) session.store.target? :=
    fun _ _ _ => trivial
  cases operation with
  | validate validator value =>
    exact .inl (validator.validate_follows value session (hwithin validator.schema)).store
  | acceptsAbsent schema =>
    exact .inl (((hwithin schema).asks_acceptsAbsentWithin [] schema .root).follows rfl)
  | resolve schema => exact .inl (((hwithin schema).asks_resolveWithin? maxHops .root).follows rfl)
  | follow r => exact .inl (.step .start trivial)
  | peek | isResolved | display => exact .inl .start
  | release kept => exact .inr ⟨kept, rfl, rfl⟩

/-- No operation changes the graph of a schema, if it is kept whenever cells are released. -/
theorem Operation.preserves {root : Schema} {start : Store} {operation : Operation}
    {session : Session} (h : start.Preserves root session.store)
    (hkept : ∀ kept, operation = .release kept → root ∈ kept ∧ root.HoldsGraph start) :
    start.Preserves root (operation.perform session).2.store := by
  rcases operation.follows_or_releases session with hfollows | ⟨kept, hrelease, hsweep⟩
  · exact h.follows hfollows
  · obtain ⟨hk, hgraph⟩ := hkept kept hrelease
    rw [hsweep]
    exact h.sweep hk hgraph

/-- No row of operations changes the graph of a schema that is kept. -/
theorem Session.after_preserves {root : Schema} {start : Store} {operations : List Operation}
    {session : Session} (h : start.Preserves root session.store)
    (hkept : ∀ kept, .release kept ∈ operations → root ∈ kept ∧ root.HoldsGraph start) :
    start.Preserves root (session.after operations).store := by
  induction operations generalizing session with
  | nil => exact h
  | cons operation rest ih =>
    refine ih (Operation.preserves h fun kept hk => hkept kept ?_) fun kept hk =>
      hkept kept (List.mem_cons_of_mem _ hk)
    rw [hk]
    exact List.mem_cons_self

/-- Runs that end abreast have the same outcome but for type expressions of unions. -/
theorem Abreast.erase_eq {P : CellId → Prop} {texts : Prop} {targets : Targets}
    {run other : Outcome × Session} (h : Abreast P texts targets Report.erase run other) :
    Outcome.erase run.1 = Outcome.erase other.1 := by
  cases h with
  | ok h => rfl
  | error he h => exact congrArg Except.error he.1

/-- A schema that finds its graph as it was gives a value the same outcome, but for the type
expressions that unions put over their attempts. -/
theorem Store.Preserves.erase_eq {validator : Validator} {session later : Session}
    (h : session.store.Preserves validator.schema later.store) (value : Json) :
    Outcome.erase (validator.validate value later).1 =
      Outcome.erase (validator.validate value session).1 := by
  -- the cells of the graph, which are all that a validation looks at
  let ofGraph : CellId → Prop := fun cell =>
    ∃ r, Schema.Reaches session.store.target? validator.schema (.reference r) ∧ r.cell = cell
  have hwithin : validator.schema.Within ofGraph session.store.target? :=
    fun r hr => ⟨r, hr, rfl⟩
  have halike : session.store.Alike ofGraph False session.store.target? later.store := by
    refine ⟨rfl, fun cell hc => ?_, False.elim⟩
    obtain ⟨r, hr, rfl⟩ := hc
    exact h.target r hr
  exact (validator.validate_abreast value hwithin halike).erase_eq.symm

/-- The outcome for a value does not depend on what happened before, as long as the schema
holds its graph and is kept whenever cells are released: it is accepted with the same
output, or rejected for the same causes at the same paths. Only the type expressions that
unions put over their attempts may differ. -/
theorem validate_independent_of_history (validator : Validator) (value : Json)
    (session : Session) (operations : List Operation)
    (hkept : ∀ kept, .release kept ∈ operations →
      validator.schema ∈ kept ∧ validator.schema.HoldsGraph session.store) :
    Outcome.erase (validator.validate value (session.after operations)).1 =
      Outcome.erase (validator.validate value session).1 := by
  have hgraph := Session.after_preserves (.refl validator.schema session.store) hkept
  exact hgraph.erase_eq value

/-- A text, or a list of what a delayed definition says. -/
def textOrMarks : Schema := .union [.leaf .string, .list (.reference ⟨0, .thunk⟩)]

/-- A mark: an object with a number. -/
def mark : Schema := .object "Mark" [⟨"at", .leaf .number, none, false⟩]

/-- A session in which the definition of a mark has not been asked for. -/
def markSession : Session :=
  ⟨(Store.empty.allocate (.pending (.constant mark none))).2, #[]⟩

/-- What occurs in the graph of a text or marks. -/
theorem textOrMarks_reaches {schema : Schema}
    (h : textOrMarks.Reaches markSession.store.target? schema) :
    schema ∈ [textOrMarks, .leaf .string, .list (.reference ⟨0, .thunk⟩),
      .reference ⟨0, .thunk⟩, mark, .leaf .number] := by
  refine h.mem_of_closed (P := (· ∈ _)) List.mem_cons_self ?_ ?_
  · intro whole hw part hp
    simp only [List.mem_cons, List.not_mem_nil, or_false] at hw
    rcases hw with rfl | rfl | rfl | rfl | rfl | rfl <;>
      simp only [textOrMarks, mark, Schema.parts, List.map_cons, List.map_nil, List.mem_cons,
        List.not_mem_nil, or_false] at hp
    · rcases hp with rfl | rfl <;> simp
    · rw [hp]
      simp
    · rw [hp]
      simp
  · intro r hr target ht
    simp [textOrMarks, mark] at hr
    subst hr
    cases ht
    simp [Resolver.schema]

/-- Null is rejected for the same causes before and after the definition of a mark was
asked for, read and swept around, though the union reads differently then. -/
theorem textOrMarks_independent :
    Outcome.erase ((Validator.ofSettings textOrMarks {}).validate .null
        (markSession.after [.follow ⟨0, .thunk⟩, .validate (.ofSettings mark {}) .null,
          .display textOrMarks, .release [textOrMarks]])).1 =
      Outcome.erase ((Validator.ofSettings textOrMarks {}).validate .null markSession).1 ∧
    textOrMarks.render (markSession.after [.follow ⟨0, .thunk⟩]).store ≠
      textOrMarks.render markSession.store := by
  refine ⟨validate_independent_of_history (.ofSettings textOrMarks {}) .null markSession _
    fun kept hk => ⟨?_, fun r target hr _ => ?_⟩, by decide⟩
  · simp only [List.mem_cons, List.not_mem_nil, reduceCtorEq, Operation.release.injEq, or_false,
      false_or] at hk
    rw [hk]
    exact List.mem_singleton_self _
  · have hm := textOrMarks_reaches hr
    simp [textOrMarks, mark] at hm
    subst hm
    exact .kept (by decide)

end Conformance
