import Mathlib.Data.List.Nodup
import Conformance.Proofs.History
import Conformance.Proofs.Resolved

/-!
# Cells are written once

Schemas that share cells may be cloned, read, written out, asked and used for validation in
any order. All this touches the store by following cells, and following a cell runs its
resolver if the cell is pending. So each resolver runs at most once, whichever of the
references that share its cell is followed first and by what; from then on all of them lead
to the one schema that it gave.
-/

namespace Conformance

/-- What may be done with schemas and the references in them. -/
inductive Access where
  /-- A schema is cloned; the clone shares the cells. -/
  | clone (schema : Schema)
  /-- A reference is followed. -/
  | follow (r : Reference)
  /-- The schema that already lies behind a reference is read. -/
  | peek (r : Reference)
  /-- It is asked whether a schema already lies behind a reference. -/
  | isResolved (r : Reference)
  /-- It is asked whether two references lead through one cell. -/
  | sameTarget (r s : Reference)
  /-- The type expression of a schema is written. -/
  | display (schema : Schema)
  /-- The state of a reference is written. -/
  | describe (r : Reference)
  /-- The kind of a schema is named. -/
  | kind (schema : Schema)
  /-- A schema is resolved to the first that is no reference. -/
  | resolve (schema : Schema)
  /-- It is asked whether a schema accepts absence. -/
  | acceptsAbsent (schema : Schema)
  /-- A value is validated. -/
  | validate (validator : Validator) (value : Json)

namespace Access

/-- Performs an access. -/
def perform : Access → StateM Session Reply
  | .clone schema => return .found (some schema)
  | .follow r => Operation.perform (.follow r)
  | .peek r => Operation.perform (.peek r)
  | .isResolved r => Operation.perform (.isResolved r)
  | .sameTarget r s => return .answer (r.sameTarget s)
  | .display schema => Operation.perform (.display schema)
  | .describe r => return .text (r.describe (← get).store)
  | .kind schema => return .text schema.kind
  | .resolve schema => Operation.perform (.resolve schema)
  | .acceptsAbsent schema => Operation.perform (.acceptsAbsent schema)
  | .validate validator value => Operation.perform (.validate validator value)

/-- Whether an access is one of those that only look: they run no resolver. -/
def onlyLooks : Access → Bool
  | .clone _ | .peek _ | .isResolved _ | .sameTarget _ _ | .display _ | .describe _ | .kind _ =>
    true
  | .follow _ | .resolve _ | .acceptsAbsent _ | .validate _ _ => false

/-- An access that only looks leaves the session as it is. -/
theorem perform_of_onlyLooks {access : Access} (h : access.onlyLooks) (session : Session) :
    (access.perform session).2 = session := by
  cases access with
  | follow | resolve | acceptsAbsent | validate => cases h
  | _ => rfl

/-- Every access follows cells. -/
theorem follows (access : Access) (session : Session) :
    session.store.Follows (fun _ => True) (access.perform session).2.store := by
  have hoperation : ∀ operation : Operation, (∀ kept, operation ≠ .release kept) →
      session.store.Follows (fun _ => True) (operation.perform session).2.store := by
    intro operation hne
    rcases operation.follows_or_releases session with h | ⟨kept, heq, _⟩
    · exact h
    · exact absurd heq (hne kept)
  by_cases hlooks : access.onlyLooks
  · rw [perform_of_onlyLooks hlooks]
    exact .start
  · cases access with
    | follow r => exact hoperation (.follow r) fun kept h => by cases h
    | resolve schema => exact hoperation (.resolve schema) fun kept h => by cases h
    | acceptsAbsent schema => exact hoperation (.acceptsAbsent schema) fun kept h => by cases h
    | validate validator value =>
      exact hoperation (.validate validator value) fun kept h => by cases h
    | _ => exact absurd rfl hlooks

end Access

/-- The session after a row of accesses. -/
def Session.afterAccesses (session : Session) : List Access → Session
  | [] => session
  | access :: rest => Session.afterAccesses (access.perform session).2 rest

/-- A row of accesses follows cells. -/
theorem Session.afterAccesses_follows (session : Session) (accesses : List Access) :
    session.store.Follows (fun _ => True) (session.afterAccesses accesses).store := by
  induction accesses generalizing session with
  | nil => exact .start
  | cons access rest ih => exact (access.follows session).trans (ih (access.perform session).2)

/-- A store comes about from another by runs of resolvers, each of which fills a cell that
was pending and that no other one fills. -/
structure Store.FilledOnce (start later : Store) (new : List Run) : Prop where
  /-- The runs are recorded after the earlier ones. -/
  runs : later.runs = start.runs ++ new
  /-- No two of them fill one cell. -/
  once : (new.map Run.cell).Nodup
  /-- A run fills a cell that was pending with what its resolver gives. -/
  filled : ∀ run ∈ new, ∃ resolver, start.cells run.cell = .pending resolver ∧
    run.counter = resolver.counter ∧
    later.cells run.cell = .filled (resolver.schema start.bindings)
  /-- A cell that no run fills stays in its state. -/
  others : ∀ cell, cell ∉ new.map Run.cell → later.cells cell = start.cells cell
  /-- What is bound to names stays bound. -/
  bindings : later.bindings = start.bindings

namespace Store

variable {start store later : Store} {new : List Run} {cell : CellId}

/-- Following a cell that is not pending changes nothing. -/
theorem fetch?_of_not_pending (h : ∀ resolver, store.cells cell ≠ .pending resolver) :
    (fetch? cell store).2 = store := by
  unfold fetch?
  cases hc : store.cells cell with
  | pending resolver => exact absurd hc (h resolver)
  | undefined | filled | released => rfl

/-- One more cell is followed: it was pending from the start, and is filled now, or nothing
changes. -/
theorem FilledOnce.fetch? (h : start.FilledOnce store new) (cell : CellId) :
    ∃ more, start.FilledOnce (Store.fetch? cell store).2 more := by
  cases hc : store.cells cell with
  | pending resolver =>
    have hnew : cell ∉ new.map Run.cell := by
      intro hm
      obtain ⟨run, hrun, rfl⟩ := List.mem_map.mp hm
      obtain ⟨_, _, _, hfilled⟩ := h.filled run hrun
      rw [hc] at hfilled
      cases hfilled
    have hstart : start.cells cell = .pending resolver := by rw [← h.others cell hnew, hc]
    have hfetch : (Store.fetch? cell store).2 = store.runResolver cell resolver := by
      unfold Store.fetch?
      rw [hc]
    rw [hfetch]
    refine ⟨new ++ [⟨cell, resolver.counter⟩], ?_, ?_, fun run hrun => ?_, fun other ho => ?_,
      h.bindings⟩
    · rw [Store.runResolver, h.runs, List.append_assoc]
    · rw [List.map_append, List.nodup_append]
      refine ⟨h.once, List.nodup_singleton _, fun a ha b hb heq => ?_⟩
      have hb : b = cell := List.mem_singleton.mp hb
      rw [heq, hb] at ha
      exact hnew ha
    · rcases List.mem_append.mp hrun with hrun | hrun
      · obtain ⟨resolver', hpending, hcounter, hfilled⟩ := h.filled run hrun
        refine ⟨resolver', hpending, hcounter, ?_⟩
        have hne : run.cell ≠ cell := fun heq => hnew (heq ▸ List.mem_map_of_mem hrun)
        exact (if_neg hne).trans hfilled
      · rw [List.mem_singleton.mp hrun, ← h.bindings]
        exact ⟨resolver, hstart, rfl, if_pos rfl⟩
    · rw [List.map_append, List.mem_append, List.map_singleton, List.mem_singleton, not_or] at ho
      exact (if_neg ho.2).trans (h.others other ho.1)
  | undefined | filled | released =>
    rw [fetch?_of_not_pending (by simp [hc])]
    exact ⟨new, h⟩

/-- Following cells runs each resolver at most once. -/
theorem Follows.filledOnce {P : CellId → Prop} (h : start.Follows P later) :
    ∃ new, start.FilledOnce later new := by
  induction h with
  | start => exact ⟨[], (List.append_nil _).symm, List.nodup_nil, by simp, by simp, rfl⟩
  | @step _ cell _ _ ih =>
    obtain ⟨new, hnew⟩ := ih
    exact hnew.fetch? cell

/-- A cell that holds a schema was not filled again, and holds it still. -/
theorem FilledOnce.peek? (h : start.FilledOnce later new) {schema : Schema}
    (hs : start.peek? cell = some schema) :
    cell ∉ new.map Run.cell ∧ later.peek? cell = some schema := by
  have hnew : cell ∉ new.map Run.cell := by
    intro hm
    obtain ⟨run, hrun, rfl⟩ := List.mem_map.mp hm
    obtain ⟨resolver, hpending, _⟩ := h.filled run hrun
    rw [Store.peek?, hpending] at hs
    cases hs
  refine ⟨hnew, ?_⟩
  rw [Store.peek?, h.others cell hnew]
  exact hs

/-- A cell that holds a schema leads to this schema. -/
theorem target?_of_peek? {schema : Schema} (h : store.peek? cell = some schema) :
    store.target? cell = some schema := by
  unfold Store.peek? at h
  unfold Store.target?
  cases hc : store.cells cell <;> rw [hc] at h <;> cases h
  rfl

end Store

/-- Cells are written once, whatever is done with the schemas that share them. The accesses run
the resolvers of cells that were pending, no two for one cell, so that a cell whose resolver
had not run sees one run at most. A reference whose cell is pending is followed to what the
resolver gives. A reference that is followed to a schema leaves it in its cell, and once a cell
holds a schema, all references with this target lead to it. An access that only looks runs no
resolver and changes no cell. -/
theorem cells_written_once (session : Session) (accesses : List Access) :
    (∃ new, session.store.FilledOnce (session.afterAccesses accesses).store new) ∧
    (∀ cell, cell ∉ session.store.runs.map Run.cell →
      ((session.afterAccesses accesses).store.runs.map Run.cell).count cell ≤ 1) ∧
    (∀ r resolver, session.store.cells r.cell = .pending resolver →
      (Access.perform (.follow r) session).1 =
        .found (some (resolver.schema session.store.bindings))) ∧
    (∀ r schema, (Access.perform (.follow r) session).1 = .found (some schema) →
      (Access.perform (.follow r) session).2.store.peek? r.cell = some schema) ∧
    (∀ r clone schema, Reference.sameTarget r clone →
      session.store.peek? r.cell = some schema →
      Access.perform (.follow clone) (session.afterAccesses accesses) =
          (.found (some schema), session.afterAccesses accesses) ∧
        Access.perform (.peek clone) (session.afterAccesses accesses) =
          (.found (some schema), session.afterAccesses accesses)) ∧
    ∀ access : Access, access.onlyLooks → (access.perform session).2 = session := by
  obtain ⟨new, hnew⟩ := (session.afterAccesses_follows accesses).filledOnce
  have hfollow : ∀ r : Reference, (Access.perform (.follow r) session).1 =
      .found (session.store.target? r.cell) := by
    intro r
    rw [← Store.fetch?_fst]
    rfl
  refine ⟨⟨new, hnew⟩, fun cell hcell => ?_, fun r resolver hpending => ?_, fun r schema h => ?_,
    fun r clone schema hsame hs => ?_, fun access h => Access.perform_of_onlyLooks h session⟩
  · rw [hnew.runs, List.map_append, List.count_append, List.count_eq_zero_of_not_mem hcell,
      Nat.zero_add]
    exact List.nodup_iff_count_le_one.mp hnew.once cell
  · rw [hfollow, Store.target?, hpending]
  · rw [hfollow] at h
    exact (Store.peek?_fetch? session.store r.cell).trans (Reply.found.inj h)
  · have hcell : r.cell = clone.cell := by simpa [Reference.sameTarget] using hsame
    have hheld := (hnew.peek? hs).2
    rw [hcell] at hheld
    constructor
    · have hfetch : Access.perform (.follow clone) (session.afterAccesses accesses) =
          (.found (Store.fetch? clone.cell (session.afterAccesses accesses).store).1,
            { session.afterAccesses accesses with
              store := (Store.fetch? clone.cell (session.afterAccesses accesses).store).2 }) := rfl
      have htarget := Store.target?_of_peek? hheld
      rw [hfetch, Store.fetch?_of_peek? (hheld.trans htarget.symm), htarget]
    · have hpeek : Access.perform (.peek clone) (session.afterAccesses accesses) =
          (.found ((session.afterAccesses accesses).store.peek? clone.cell),
            session.afterAccesses accesses) := rfl
      rw [hpeek, hheld]

/-- The definition of a mark is looked at and followed twice. Its resolver runs, and no more
than once, and every clone of the reference leads to what it gave. -/
theorem mark_written_once :
    ((markSession.afterAccesses [.peek ⟨0, .thunk⟩, .follow ⟨0, .thunk⟩,
      .follow ⟨0, .thunk⟩]).store.runs.map Run.cell).count 0 ≤ 1 ∧
    (Access.perform (.follow ⟨0, .thunk⟩) markSession).1 = .found (some mark) ∧
    Access.perform (.follow ⟨0, .thunk⟩)
        ((Access.perform (.follow ⟨0, .thunk⟩) markSession).2.afterAccesses [.display mark]) =
      (.found (some mark),
        (Access.perform (.follow ⟨0, .thunk⟩) markSession).2.afterAccesses [.display mark]) := by
  obtain ⟨_, honce, hpending, hkept, _, _⟩ := cells_written_once markSession
    [.peek ⟨0, .thunk⟩, .follow ⟨0, .thunk⟩, .follow ⟨0, .thunk⟩]
  have hgives := hpending ⟨0, .thunk⟩ (.constant mark none) rfl
  obtain ⟨_, _, _, _, hclones, _⟩ := cells_written_once
    (Access.perform (.follow ⟨0, .thunk⟩) markSession).2 [.display mark]
  exact ⟨honce 0 (by decide), hgives,
    (hclones ⟨0, .thunk⟩ ⟨0, .thunk⟩ mark rfl (hkept ⟨0, .thunk⟩ mark hgives)).1⟩

end Conformance
