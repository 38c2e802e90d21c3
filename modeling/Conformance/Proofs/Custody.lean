import Conformance.Proofs.Building
import Conformance.Proofs.DepthLimit
import Conformance.Proofs.History

/-!
# Mentions lead on while their definition is held

A program builds schemas, holds some of them, binds names to them, uses them, gives them up, and
whatever nothing holds is released. What it holds stays anchored all the while. So no reference
that a use of a held schema comes to leads nowhere, and no outcome says that one does.
-/

namespace Conformance

/-- The sessions that a program comes to, with the schemas that it holds then. -/
inductive Session.Holding : List Schema → Session → Prop
  /-- Nothing has been built. -/
  | start : Holding [] ⟨.empty, #[]⟩
  /-- A schema is built that embeds its definitions through their handles, and held. -/
  | built {held : List Schema} {session : Session} {schema : Schema} {workshop : Workshop}
    (h : Holding held session) (blueprint : Blueprint) (inspections : List Inspection)
    (hembeds : blueprint.embedsHandles)
    (hbuild : blueprint.build ⟨session.store, inspections⟩ = (.ok schema, workshop)) :
    Holding (schema :: held) { session with store := workshop.store }
  /-- Something is built, rightly or not, and not held. -/
  | passed {held : List Schema} {session : Session} (h : Holding held session)
    (blueprint : Blueprint) (inspections : List Inspection) :
    Holding held
      { session with store := (blueprint.build ⟨session.store, inspections⟩).2.store }
  /-- A schema is put together from held ones. -/
  | composed {held : List Schema} {session : Session} {schema : Schema}
    (h : Holding held session) (hne : ∀ r, schema ≠ .reference r) (hparts : schema.parts ⊆ held) :
    Holding (schema :: held) session
  /-- A name is bound to a held schema. -/
  | bound {held : List Schema} {session : Session} {schema : Schema} (h : Holding held session)
    (name : String) (hm : schema ∈ held) :
    Holding held { session with store := session.store.bind name schema }
  /-- A name is unbound. -/
  | unbound {held : List Schema} {session : Session} (h : Holding held session) (name : String) :
    Holding held { session with store := session.store.unbind name }
  /-- Schemas are held no longer. -/
  | dropped {held fewer : List Schema} {session : Session} (h : Holding held session)
    (hfewer : fewer ⊆ held) : Holding fewer session
  /-- Any schemas are used, or cells are released that nothing holds. -/
  | performed {held : List Schema} {session : Session} (h : Holding held session)
    (operation : Operation) (hkept : ∀ kept, operation = .release kept → held ⊆ kept) :
    Holding held (operation.perform session).2

section Sound

variable {session : Session} {held : List Schema}

/-- What is built right is anchored, as is what was held before. -/
theorem Store.Sound.built {blueprint : Blueprint} {workshop later : Workshop} {schema : Schema}
    (h : workshop.store.Sound held) (hembeds : blueprint.embedsHandles)
    (hbuild : blueprint.build workshop = (.ok schema, later)) :
    later.store.Sound (schema :: held) := by
  have hready : workshop.store.Ready [] :=
    ⟨fun c hc => absurd hc List.not_mem_nil,
      fun root hroot => h root (.inr (hroot.resolve_left List.not_mem_nil))⟩
  have hgrows := Blueprint.buildIn_extends [] blueprint workshop
  have hgood := Blueprint.buildIn_anchored [] blueprint hembeds workshop hready trivial schema
  change (blueprint.buildIn []).run workshop = _ at hbuild
  rw [hbuild] at hgrows hgood
  have hheld := h.grows hgrows
  intro root hroot
  rcases hroot with hroot | hroot
  · rcases List.mem_cons.mp hroot with rfl | hm
    · exact hgood rfl
    · exact hheld root (.inl hm)
  · exact hheld root (.inr hroot)

/-- What is held stays anchored when an operation is performed, if it is kept whenever cells
are released. -/
theorem Operation.sound {operation : Operation} (h : session.store.Sound held)
    (hkept : ∀ kept, operation = .release kept → held ⊆ kept) :
    (operation.perform session).2.store.Sound held := by
  rcases operation.follows_or_releases session with hfollows | ⟨kept, hrelease, hsweep⟩
  · exact h.follows hfollows
  · rw [hsweep]
    exact h.sweep (hkept kept hrelease)

/-- All that a program holds is anchored. -/
theorem Session.Holding.sound (h : Session.Holding held session) : session.store.Sound held := by
  induction h with
  | start => exact fun root hroot => by rcases hroot with hroot | hroot <;> cases hroot
  | built _ _ _ hembeds hbuild ih => exact ih.built hembeds hbuild
  | @passed held session _ blueprint inspections ih =>
    exact ih.grows (Blueprint.buildIn_extends [] blueprint ⟨session.store, inspections⟩)
  | composed _ hne hparts ih =>
    intro root hroot
    rcases hroot with hroot | hroot
    · rcases List.mem_cons.mp hroot with rfl | hm
      · exact .of_parts hne fun part hp => ih part (.inl (hparts hp))
      · exact ih root (.inl hm)
    · exact ih root (.inr hroot)
  | bound _ name hm ih => exact ih.bind name hm
  | unbound _ name ih => exact ih.unbind name
  | dropped _ hfewer ih => exact fun root hroot => ih root (hroot.imp_left fun hm => hfewer hm)
  | performed _ _ hkept ih => exact Operation.sound ih hkept

end Sound

section Reports

variable {targets : Targets} {start place : Place} {inner : Rejection}

/-- That a reference leads nowhere is said by the policy itself, or of a reference in the graph
that leads nowhere. -/
theorem Raised.unresolvedReference (hr : Raised targets place inner)
    (hv : Visits targets start place) (hc : inner.cause = .unresolvedReference) :
    RaisedByPolicy targets start inner ∨
      ∃ r, Schema.Reaches targets start.schema (.reference r) ∧ targets r.cell = none := by
  have hreaches := hv.reaches
  cases hr with
  | refused h hcarries => exact .inl (hv.raisedByPolicy h hcarries)
  | @nowhere _ r _ _ _ ht => exact .inr ⟨r, hreaches, ht⟩
  | _ => cases hc

end Reports

/-- Following a cell gives a schema. -/
def Store.LeadsOn (store : Store) (cell : CellId) : Prop := (store.target? cell).isSome

/-- Mentions never dangle while their definition is held. Let a program build schemas that embed
their definitions through their handles, and use, bind and give up schemas in any order. Then
every reference in the graph of a schema that it holds leads on. So all references that are
followed when this schema, or another one in its graph, is resolved, asked whether it accepts
absence, or used to validate a value lead on. No rejection that comes of it, and nothing that
one carries as an attempt or a cause, says that a reference leads nowhere, unless the policy
says so by itself of a leaf that the check comes to; built-in policies never do. -/
theorem held_references_lead_on {held : List Schema} {session : Session} {root schema : Schema}
    (h : Session.Holding held session) (hm : root ∈ held)
    (hr : Schema.Reaches session.store.target? root schema) :
    schema.Within session.store.LeadsOn session.store.target? ∧
    Asks session.store.LeadsOn session.store.target? schema.resolve? ∧
    Asks session.store.LeadsOn session.store.target? schema.acceptsAbsent ∧
    ∀ (validator : Validator) (value : Json), validator.schema = schema →
      session.Follows session.store.LeadsOn (validator.validate value session).2 ∧
      ∀ inner, Outcome.Carries (validator.validate value session).1 inner →
        (inner.cause = .unresolvedReference → RaisedByPolicy session.store.target?
          ⟨validator.toRules, validator.schema, value, .root⟩ inner) ∧
        ∀ kind : PolicyKind, validator.policy = kind.policy →
          inner.cause ≠ .unresolvedReference := by
  have hwithin : schema.Within session.store.LeadsOn session.store.target? := by
    intro r hreference
    have hroot : Schema.Reaches session.store.target? root (.reference r) :=
      hreference.mem_of_closed hr (fun _ hw _ hp => hw.part hp) fun _ hr _ ht => hr.target ht
    exact h.sound.target?_isSome hm hroot
  refine ⟨hwithin, hwithin.asks_resolveWithin? maxHops .root,
    hwithin.asks_acceptsAbsentWithin [] schema .root, ?_⟩
  rintro validator value rfl
  refine ⟨validator.validate_follows value session hwithin, fun inner hcarries => ?_⟩
  have hpolicy : inner.cause = .unresolvedReference → RaisedByPolicy session.store.target?
      ⟨validator.toRules, validator.schema, value, .root⟩ inner := by
    intro hcause
    obtain ⟨place, hv, hraised⟩ := validator.raised hcarries
    rcases hraised.unresolvedReference hv hcause with hraises | ⟨r, hreference, hnone⟩
    · exact hraises
    · have hleads : (session.store.target? r.cell).isSome := hwithin r hreference
      rw [hnone] at hleads
      cases hleads
  refine ⟨hpolicy, fun kind hkind hcause => ?_⟩
  obtain ⟨_, leaf, refused, here, _, hraises⟩ := hpolicy hcause
  change validator.policy.Raises leaf refused here.path inner at hraises
  rw [hkind] at hraises
  have hrefusal := kind.refusal_of_raises hraises
  rw [hcause] at hrefusal
  cases hrefusal

/-- A folder with files. A file mentions its folder, though only when asked, and the file that
comes next; its owner is whatever this name is bound to. -/
def folderSketch : Blueprint :=
  .recursive "Folder" (.object "Folder" [⟨"files", .list (.recursive "File" (.struct
    [⟨"folder", .delayed (.self "Folder" false) none, none, false⟩,
     ⟨"next", .nullable (.self "File" false), none, false⟩,
     ⟨"owner", .nullable (.late "Owner"), none, false⟩])), none, false⟩])

/-- The workshop after folders were built, where owners were bound to texts. -/
def folderWorkshop : Workshop :=
  (folderSketch.build ⟨Store.empty.bind "Owner" (.leaf .string), []⟩).2

/-- The handle of folders. -/
def folder : Schema := .reference ⟨0, .owner⟩

/-- The session in which the owner has been asked for, only folders are held, and all that
nothing holds is released. -/
def folderSession : Session :=
  let asked := (Operation.perform (.follow ⟨3, .thunk⟩) ⟨folderWorkshop.store, #[]⟩).2
  (Operation.perform (.release [folder]) { asked with store := asked.store.unbind "Owner" }).2

/-- A program that holds folders comes to this session. -/
theorem folderSession_holding : Session.Holding [folder] folderSession := by
  have howner : Session.Holding [.leaf .string] ⟨.empty, #[]⟩ :=
    .built .start (.leaf .string) [] rfl rfl
  have hbound : Session.Holding [.leaf .string] ⟨Store.empty.bind "Owner" (.leaf .string), #[]⟩ :=
    howner.bound "Owner" List.mem_cons_self
  have hbuilt : Session.Holding [folder, .leaf .string] ⟨folderWorkshop.store, #[]⟩ :=
    .built hbound folderSketch [] rfl rfl
  have hasked := hbuilt.performed (.follow ⟨3, .thunk⟩) fun kept h => by cases h
  have hkept : Session.Holding [folder] _ := (hasked.unbound "Owner").dropped (by simp)
  refine hkept.performed (.release [folder]) fun kept h => ?_
  cases h
  exact fun _ => id

/-- In all that is reached from the handle of folders references lead on, and whatever is
validated against it, no rejection says that one leads nowhere. -/
theorem folder_leads_on :
    Session.Holding [folder] folderSession ∧
    folder.Within folderSession.store.LeadsOn folderSession.store.target? ∧
    ∀ value inner,
      Outcome.Carries ((Validator.ofSettings folder {}).validate value folderSession).1 inner →
        inner.cause ≠ .unresolvedReference := by
  obtain ⟨hwithin, _, _, hvalidate⟩ :=
    held_references_lead_on folderSession_holding (List.mem_singleton_self folder) .root
  refine ⟨folderSession_holding, hwithin, fun value inner hcarries => ?_⟩
  obtain ⟨_, houtcome⟩ := hvalidate (.ofSettings folder {}) value rfl
  exact (houtcome inner hcarries).2 .strict rfl

/-- Where a definition is resolved and its handle given up, the mention inside is left
dangling. -/
example : (Operation.perform (.release [.list (.reference ⟨0, .back⟩)])
    ⟨((Blueprint.resolved (.recursive "Row" (.list (.self "Row" false)))).build
      ⟨.empty, []⟩).2.store, #[]⟩).2.store.target? 0 = none := rfl

end Conformance
