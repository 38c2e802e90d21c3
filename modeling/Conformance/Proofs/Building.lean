import Conformance.Blueprint
import Conformance.Proofs.Anchoring

/-!
# Built schemas are anchored

Building a blueprint adds cells, and fills those of definitions that are complete; it may also
follow cells, but it takes nothing away. A mention of a definition is in the scope of this
definition. So while a definition is being built its cell is the only one that is mentioned
without being owned, and when it is complete its handle owns it. This goes for all blueprints
that embed definitions through their handles: one that is resolved instead gives its handle up,
and the mentions inside are left with nothing that owns them.
-/

namespace Conformance

namespace Blueprint

mutual

/-- Whether a blueprint embeds every definition through its handle, and resolves none. -/
def embedsHandles : Blueprint → Bool
  | .leaf _ | .double _ | .json | .any | .self _ _ | .late _ | .bound _ => true
  | .list body | .nullable body | .record body | .recursive _ body | .delayed body _ =>
    body.embedsHandles
  | .union members | .intersection members => allEmbedHandles members
  | .struct fields | .object _ fields => fieldsEmbedHandles fields
  | .resolved _ => false

/-- Whether members embed every definition through its handle. -/
def allEmbedHandles : List Blueprint → Bool
  | [] => true
  | member :: rest => member.embedsHandles && allEmbedHandles rest

/-- Whether the blueprints of fields embed every definition through its handle. -/
def fieldsEmbedHandles : List (Field Blueprint) → Bool
  | [] => true
  | ⟨_, body, _, _⟩ :: rest => body.embedsHandles && fieldsEmbedHandles rest

end

end Blueprint

/-- How a store changes while something is built: cells are added and followed, and those that
were added for definitions are filled when the definitions are complete. -/
inductive Store.Grows (start : Store) : Store → Prop
  /-- Nothing happens. -/
  | start : Grows start start
  /-- A cell is added. -/
  | allocate {store : Store} (h : Grows start store) (state : Cell) :
    Grows start (store.allocate state).2
  /-- A cell is followed. -/
  | fetch {store : Store} (h : Grows start store) (cell : CellId) :
    Grows start (Store.fetch? cell store).2
  /-- The definition of an added cell is complete. -/
  | complete {store : Store} {cell : CellId} (h : Grows start store) (hnew : start.size ≤ cell)
    (hundefined : store.cells cell = .undefined) (schema : Schema) :
    Grows start (store.setCell cell (.filled schema))

namespace Store.Grows

variable {start store later : Store}

/-- The cells in use stay in use. -/
theorem size (h : start.Grows later) : start.size ≤ later.size := by
  induction h with
  | start => exact Nat.le_refl _
  | allocate _ _ ih => exact Nat.le_trans ih (Nat.le_succ _)
  | @fetch store _ cell ih =>
    rw [(bindings_fetch? store cell).2]
    exact ih
  | complete _ _ _ _ ih => exact ih

/-- What is bound to names stays bound. -/
theorem bindings (h : start.Grows later) : later.bindings = start.bindings := by
  induction h with
  | start => rfl
  | allocate _ _ ih => exact ih
  | @fetch store _ cell ih => rw [(bindings_fetch? store cell).1, ih]
  | complete _ _ _ _ ih => exact ih

/-- The cells of definitions that were begun before stay reserved. -/
theorem undefined (h : start.Grows later) {c : CellId} (hc : c < start.size)
    (hstate : start.cells c = .undefined) : later.cells c = .undefined := by
  induction h with
  | start => exact hstate
  | allocate h _ ih => exact (if_neg (Nat.ne_of_lt (Nat.lt_of_lt_of_le hc h.size))).trans ih
  | @fetch store _ cell ih =>
    by_cases heq : c = cell
    · subst heq
      rw [Store.fetch?, ih]
      exact ih
    · rw [cells_fetch?_of_ne store heq, ih]
  | complete _ hnew _ _ ih =>
    exact (if_neg (Nat.ne_of_lt (Nat.lt_of_lt_of_le hc hnew))).trans ih

/-- One thing happens after the other. -/
theorem trans (h : start.Grows store) (h' : store.Grows later) : start.Grows later := by
  induction h' with
  | start => exact h
  | allocate _ state ih => exact ih.allocate state
  | fetch _ cell ih => exact ih.fetch cell
  | complete _ hnew hundefined schema ih =>
    exact ih.complete (Nat.le_trans h.size hnew) hundefined schema

/-- Cells are followed. -/
theorem of_follows {P : CellId → Prop} (h : start.Follows P later) : start.Grows later := by
  induction h with
  | start => exact .start
  | @step store cell _ _ ih => exact ih.fetch cell

/-- A schema is resolved. -/
theorem resolve (store : Store) (schema : Schema) : store.Grows (schema.resolve? store).2 := by
  have hwithin : schema.Within (fun _ => True) store.target? := fun _ _ => trivial
  exact .of_follows ((hwithin.asks_resolveWithin? maxHops .root).follows rfl)

/-- It is asked whether a schema accepts absence. -/
theorem absence (store : Store) (schema : Schema) : store.Grows (schema.acceptsAbsent store).2 := by
  have hwithin : schema.Within (fun _ => True) store.target? := fun _ _ => trivial
  exact .of_follows ((hwithin.asks_acceptsAbsentWithin [] schema .root).follows rfl)

end Store.Grows

/-- Where a store grows, a schema stays anchored but for definitions that were begun before, if
everything is anchored that is bound to a name. -/
theorem Schema.Anchored.grows {start later : Store} {root : Schema} {unfinished : List CellId}
    (hsound : start.Sound []) (hgrows : start.Grows later) (h : root.Anchored start unfinished)
    (hreserved : ∀ c ∈ unfinished, c < start.size ∧ start.cells c = .undefined) :
    root.Anchored later unfinished := by
  induction hgrows generalizing root unfinished with
  | start => exact h
  | allocate hgrows state ih =>
    refine (ih h hreserved).transfer (Nat.le_succ _) (fun c _ hc => if_neg (Nat.ne_of_lt hc))
      fun c hc => if_neg (Nat.ne_of_lt ?_)
    exact Nat.lt_of_lt_of_le (hreserved c hc).1 hgrows.size
  | @fetch store hgrows cell ih =>
    have hnone : ∀ c ∈ ([] : List CellId), c < start.size ∧ start.cells c = .undefined :=
      fun c hc => absurd hc List.not_mem_nil
    refine (ih h hreserved).fetch? (fun bound hb => ?_) (fun c hc => ?_) cell
    · rw [hgrows.bindings] at hb
      exact ih (hsound bound (.inr hb)) hnone
    · obtain ⟨hin, hstate⟩ := hreserved c hc
      exact hgrows.undefined hin hstate
  | @complete store cell hgrows hnew hundefined schema ih =>
    have hold : ∀ c ∈ unfinished, c ≠ cell := fun c hc =>
      Nat.ne_of_lt (Nat.lt_of_lt_of_le (hreserved c hc).1 hnew)
    refine (ih h hreserved).transfer (Nat.le_refl _) (fun c hc _ => if_neg fun heq => ?_)
      fun c hc => if_neg (hold c hc)
    -- nothing owns the cell yet, as it led nowhere
    rcases (ih h hreserved).owned hc with hm | hsecured
    · exact hold c hm heq
    · have hleads := hsecured.leadsOn
      rw [heq, hundefined] at hleads
      cases hleads

/-- Where a store grows, everything stays anchored that is held. -/
theorem Store.Sound.grows {start later : Store} {held : List Schema} (h : start.Sound held)
    (hgrows : start.Grows later) : later.Sound held := by
  intro root hroot
  rw [hgrows.bindings] at hroot
  exact (h root hroot).grows (fun bound hb => h bound (.inr (hb.resolve_left List.not_mem_nil)))
    hgrows fun c hc => absurd hc List.not_mem_nil

/-- A store in which something may be built inside of definitions: their cells are reserved,
and everything that is bound to a name is anchored. -/
structure Store.Ready (enclosing : List (String × CellId)) (store : Store) : Prop where
  /-- The cells of the definitions are in use and not filled. -/
  reserved : ∀ c ∈ enclosing.map Prod.snd, c < store.size ∧ store.cells c = .undefined
  /-- Everything that is bound to a name is anchored. -/
  sound : store.Sound []

section Ready

variable {enclosing : List (String × CellId)} {store later : Store}

/-- A schema is anchored but for the definitions that it is built in. -/
abbrev AnchoredIn (enclosing : List (String × CellId)) (store : Store) (schema : Schema) : Prop :=
  schema.Anchored store (enclosing.map Prod.snd)

/-- Where a store grows, it stays ready. -/
theorem Store.Ready.grows (h : store.Ready enclosing) (hgrows : store.Grows later) :
    later.Ready enclosing := by
  refine ⟨fun c hc => ?_, h.sound.grows hgrows⟩
  obtain ⟨hin, hstate⟩ := h.reserved c hc
  exact ⟨Nat.lt_of_lt_of_le hin hgrows.size, hgrows.undefined hin hstate⟩

/-- A definition is begun. -/
theorem Store.Ready.begin (h : store.Ready enclosing) (label : String) :
    (store.allocate .undefined).2.Ready ((label, store.size) :: enclosing) := by
  have hgrown := h.grows (.allocate .start .undefined)
  refine ⟨fun c hc => ?_, hgrown.sound⟩
  rcases List.mem_cons.mp hc with rfl | hc
  · exact ⟨Nat.lt_succ_self _, if_pos rfl⟩
  · exact hgrown.reserved c hc

end Ready

namespace Build

variable {α β : Type}

/-- One step of building after the other. -/
theorem run_bind (step : Build α) (next : α → Build β) (workshop : Workshop) :
    (step >>= next).run workshop = match step.run workshop with
      | (.ok a, later) => (next a).run later
      | (.error mistake, later) => (.error mistake, later) := by
  change (match step.run workshop with
    | (result, later) => ExceptT.bindCont next result later) = _
  rcases step.run workshop with ⟨_ | _, later⟩ <;> rfl

/-- In a step of building the store grows. -/
def Extends (step : Build α) : Prop :=
  ∀ workshop : Workshop, workshop.store.Grows (step.run workshop).2.store

/-- Nothing is built. -/
theorem Extends.done (a : α) : Extends (Pure.pure a) := fun _ => .start

/-- Building ends with a mistake. -/
theorem Extends.mistaken (mistake : BuildError) : Extends (throw mistake : Build α) :=
  fun _ => .start

/-- Steps of building are put together. -/
theorem Extends.bind {step : Build α} {next : α → Build β} (h : Extends step)
    (hnext : ∀ a, Extends (next a)) : Extends (step >>= next) := by
  intro workshop
  have hgrows := h workshop
  rw [run_bind]
  rcases hrun : step.run workshop with ⟨mistake | a, later⟩ <;> rw [hrun] at hgrows
  · exact hgrows
  · exact hgrows.trans (hnext a later)

/-- The result of a declaration is taken over. -/
theorem Extends.ofDefinition (result : Except DefinitionError Schema) :
    Extends (Build.ofDefinition result) := by
  cases result with
  | ok schema => exact .done schema
  | error mistake => exact .mistaken _

/-- A step on the store lets it grow. -/
theorem Extends.onStore {step : StateM Store α}
    (h : ∀ store : Store, store.Grows (step store).2) : Extends (Build.onStore step) :=
  fun workshop => h workshop.store

/-- A cell is added. -/
theorem Extends.allocate (state : Cell) : Extends (Build.allocate state) :=
  .onStore fun _ => .allocate .start state

/-- A mention of a definition that is not complete is inspected. -/
theorem Extends.inspect (r : Reference) : Extends (Build.inspect r) := by
  intro workshop
  have hfetch : workshop.store.Grows (Store.fetch? r.cell workshop.store).2 := .fetch .start r.cell
  have hresolve := hfetch.trans (.resolve _ (.reference r))
  exact hresolve.trans (.absence _ (.reference r))

end Build

/-- The workshop in which a cell is reserved for a definition. -/
def Workshop.reserve (workshop : Workshop) : Workshop :=
  { workshop with store := (workshop.store.allocate .undefined).2 }

namespace Blueprint

/-- A definition is built: a cell is reserved for it, and filled when its body is complete. -/
theorem run_recursive (enclosing : List (String × CellId)) (label : String) (body : Blueprint)
    (workshop : Workshop) :
    (buildIn enclosing (.recursive label body)).run workshop =
      match (buildIn ((label, workshop.store.size) :: enclosing) body).run workshop.reserve with
      | (.ok schema, later) => (.ok (.reference ⟨workshop.store.size, .owner⟩),
          { later with store := later.store.setCell workshop.store.size (.filled schema) })
      | (.error mistake, later) => (.error mistake, later) := by
  rw [buildIn, Build.run_bind]
  change (buildIn ((label, workshop.store.size) :: enclosing) body >>= _).run workshop.reserve = _
  rw [Build.run_bind]
  rcases (buildIn ((label, workshop.store.size) :: enclosing) body).run workshop.reserve with
    ⟨_ | _, later⟩ <;> rfl

/-- Where a definition is built, the store grows if it does for the body. -/
theorem extends_recursive {enclosing : List (String × CellId)} {label : String} {body : Blueprint}
    (h : ∀ cell, (buildIn ((label, cell) :: enclosing) body).Extends) :
    (buildIn enclosing (.recursive label body)).Extends := by
  intro workshop
  have hreserve : workshop.store.Grows workshop.reserve.store := .allocate .start .undefined
  have hbody := h workshop.store.size workshop.reserve
  rw [run_recursive]
  rcases hb : (buildIn ((label, workshop.store.size) :: enclosing) body).run workshop.reserve with
    ⟨mistake | schema, later⟩ <;> rw [hb] at hbody
  · exact hreserve.trans hbody
  · exact (hreserve.trans hbody).complete (Nat.le_refl _)
      (hbody.undefined (Nat.lt_succ_self _) (if_pos rfl)) schema

/-- One property for each of the three functions that build. -/
structure Construction where
  /-- Said of the building of a blueprint, inside the definitions of some labels. -/
  ofBlueprint : List (String × CellId) → Blueprint → Prop
  /-- Said of the building of fields. -/
  ofFields : List (String × CellId) → List (Field Blueprint) → Prop
  /-- Said of the building of members. -/
  ofMembers : List (String × CellId) → List Blueprint → Prop

/-- Every step of building carries the properties from the parts that it builds. -/
structure Construction.Inductive (build : Construction) : Prop where
  leaf : ∀ enclosing kind, build.ofBlueprint enclosing (.leaf kind)
  double : ∀ enclosing value, build.ofBlueprint enclosing (.double value)
  json : ∀ enclosing, build.ofBlueprint enclosing .json
  any : ∀ enclosing, build.ofBlueprint enclosing .any
  list : ∀ enclosing element, build.ofBlueprint enclosing element →
    build.ofBlueprint enclosing (.list element)
  nullable : ∀ enclosing inner, build.ofBlueprint enclosing inner →
    build.ofBlueprint enclosing (.nullable inner)
  record : ∀ enclosing entry, build.ofBlueprint enclosing entry →
    build.ofBlueprint enclosing (.record entry)
  union : ∀ enclosing members, build.ofMembers enclosing members →
    build.ofBlueprint enclosing (.union members)
  intersection : ∀ enclosing members, build.ofMembers enclosing members →
    build.ofBlueprint enclosing (.intersection members)
  struct : ∀ enclosing fields, build.ofFields enclosing fields →
    build.ofBlueprint enclosing (.struct fields)
  object : ∀ enclosing name fields, build.ofFields enclosing fields →
    build.ofBlueprint enclosing (.object name fields)
  recursive : ∀ enclosing label body,
    (∀ cell, build.ofBlueprint ((label, cell) :: enclosing) body) →
    build.ofBlueprint enclosing (.recursive label body)
  mention : ∀ enclosing label inspected, build.ofBlueprint enclosing (.self label inspected)
  delayed : ∀ enclosing body counter, build.ofBlueprint enclosing body →
    build.ofBlueprint enclosing (.delayed body counter)
  late : ∀ enclosing name, build.ofBlueprint enclosing (.late name)
  bound : ∀ enclosing name, build.ofBlueprint enclosing (.bound name)
  resolved : ∀ enclosing body, build.ofBlueprint enclosing body →
    build.ofBlueprint enclosing (.resolved body)
  noFields : ∀ enclosing, build.ofFields enclosing []
  moreFields : ∀ enclosing (field : Field Blueprint) rest,
    build.ofBlueprint enclosing field.schema → build.ofFields enclosing rest →
    build.ofFields enclosing (field :: rest)
  noMembers : ∀ enclosing, build.ofMembers enclosing []
  moreMembers : ∀ enclosing member rest, build.ofBlueprint enclosing member →
    build.ofMembers enclosing rest → build.ofMembers enclosing (member :: rest)

/-- What every step carries holds of all that is built, alone or in a row. -/
theorem Construction.Inductive.holds {build : Construction} (step : build.Inductive) :
    (∀ enclosing blueprint, build.ofBlueprint enclosing blueprint) ∧
    (∀ enclosing fields, build.ofFields enclosing fields) ∧
    (∀ enclosing members, build.ofMembers enclosing members) := by
  apply buildIn.mutual_induct build.ofBlueprint build.ofFields build.ofMembers
  case case1 => exact step.leaf
  case case2 => exact step.double
  case case3 => exact step.json
  case case4 => exact step.any
  case case5 => exact step.list
  case case6 => exact step.nullable
  case case7 => exact step.record
  case case8 => exact step.union
  case case9 => exact step.intersection
  case case10 => exact step.struct
  case case11 => exact step.object
  case case12 => exact step.recursive
  case case13 => exact fun enclosing label inspected _ => step.mention enclosing label inspected
  case case14 => exact fun enclosing label _ _ => step.mention enclosing label true
  case case15 =>
    exact fun enclosing label inspected _ _ _ => step.mention enclosing label inspected
  case case16 => exact step.delayed
  case case17 => exact step.late
  case case18 => exact step.bound
  case case19 => exact step.resolved
  case case20 => exact step.noMembers
  case case21 => exact step.moreMembers
  case case22 => exact step.noFields
  case case23 => exact fun enclosing name schema description deprecated rest =>
    step.moreFields enclosing ⟨name, schema, description, deprecated⟩ rest

/-- Where anything is built, the store grows. -/
def growing : Construction where
  ofBlueprint enclosing blueprint := (buildIn enclosing blueprint).Extends
  ofFields enclosing fields := (buildFields enclosing fields).Extends
  ofMembers enclosing members := (buildMembers enclosing members).Extends

theorem growing_inductive : growing.Inductive := by
  constructor <;> dsimp only [growing]
  case leaf =>
    intro enclosing kind
    rw [buildIn]
    exact .done _
  case double =>
    intro enclosing value
    rw [buildIn]
    exact .ofDefinition _
  case json | any =>
    intro enclosing
    rw [buildIn]
    exact .done _
  case list | nullable | record =>
    intro enclosing inner ih
    rw [buildIn]
    exact ih.bind fun schema => .done _
  case union | intersection =>
    intro enclosing members ih
    rw [buildIn]
    exact ih.bind fun built => .ofDefinition _
  case struct =>
    intro enclosing fields ih
    rw [buildIn]
    exact ih.bind fun built => .ofDefinition _
  case object =>
    intro enclosing name fields ih
    rw [buildIn]
    exact ih.bind fun built => .ofDefinition _
  case recursive => exact fun enclosing label body => extends_recursive
  case mention =>
    intro enclosing label inspected
    rw [buildIn]
    cases Entries.lookup label enclosing with
    | none => exact .mistaken _
    | some cell =>
      cases inspected with
      | true => exact .bind (.inspect _) fun _ => .done _
      | false => exact .done _
  case delayed =>
    intro enclosing body counter ih
    rw [buildIn]
    exact ih.bind fun schema => .bind (.allocate _) fun cell => .done _
  case late =>
    intro enclosing name
    rw [buildIn]
    exact .bind (.allocate _) fun cell => .done _
  case bound =>
    intro enclosing name
    rw [buildIn]
    refine .bind (fun _ => .start) fun workshop => ?_
    cases workshop.store.bound? name with
    | none => exact .mistaken _
    | some schema => exact .done _
  case resolved =>
    intro enclosing body ih
    rw [buildIn]
    refine ih.bind fun schema =>
      .bind (.onStore fun store => .resolve store schema) fun found => ?_
    cases found with
    | none => exact .mistaken _
    | some concrete => exact .done _
  case noFields =>
    intro enclosing
    rw [buildFields]
    exact .done _
  case moreFields =>
    intro enclosing field rest ihb ihr
    rw [buildFields]
    exact ihb.bind fun schema => .bind ihr fun built => .done _
  case noMembers =>
    intro enclosing
    rw [buildMembers]
    exact .done _
  case moreMembers =>
    intro enclosing member rest ihm ihr
    rw [buildMembers]
    exact ihm.bind fun schema => .bind ihr fun built => .done _

/-- Where a blueprint is built, the store grows. -/
theorem buildIn_extends (enclosing : List (String × CellId)) (blueprint : Blueprint) :
    (buildIn enclosing blueprint).Extends := growing_inductive.holds.1 enclosing blueprint

/-- Where the blueprints of fields are built, the store grows. -/
theorem buildFields_extends (enclosing : List (String × CellId))
    (fields : List (Field Blueprint)) : (buildFields enclosing fields).Extends :=
  growing_inductive.holds.2.1 enclosing fields

/-- Where members are built, the store grows. -/
theorem buildMembers_extends (enclosing : List (String × CellId)) (members : List Blueprint) :
    (buildMembers enclosing members).Extends := growing_inductive.holds.2.2 enclosing members

end Blueprint

namespace Build

variable {α β : Type}

/-- From a store that is ready what a step of building gives is right. -/
def Yields (enclosing : List (String × CellId)) (before : Store → Prop) (step : Build α)
    (after : Store → α → Prop) : Prop :=
  ∀ workshop, workshop.store.Ready enclosing → before workshop.store →
    ∀ a, (step.run workshop).1 = .ok a → after (step.run workshop).2.store a

variable {enclosing : List (String × CellId)} {before : Store → Prop}

/-- Steps of building are put together. -/
theorem Yields.bind {step : Build α} {next : α → Build β} {between : Store → α → Prop}
    {after : Store → β → Prop} (hextends : step.Extends) (h : Yields enclosing before step between)
    (hnext : ∀ a, Yields enclosing (between · a) (next a) after) :
    Yields enclosing before (step >>= next) after := by
  intro workshop hready hbefore b hb
  have hgrows := hextends workshop
  have hgood := h workshop hready hbefore
  rw [run_bind] at hb ⊢
  rcases hrun : step.run workshop with ⟨mistake | a, later⟩ <;> rw [hrun] at hgrows hgood hb
  · cases hb
  · exact hnext a later (hready.grows hgrows) (hgood a rfl) b hb

/-- Nothing is built. -/
theorem Yields.done {a : α} {after : Store → α → Prop}
    (h : ∀ store, store.Ready enclosing → before store → after store a) :
    Yields enclosing before (Pure.pure a) after := by
  intro workshop hready hbefore b hb
  cases hb
  exact h _ hready hbefore

/-- The store is looked at. -/
theorem Yields.read :
    Yields enclosing before get (fun store workshop => workshop.store = store) :=
  fun _ _ _ _ ha => by
    cases ha
    rfl

/-- A mention of a definition is inspected. -/
theorem Yields.inspect {r : Reference} :
    Yields enclosing before (Build.inspect r) (fun _ _ => True) := fun _ _ _ _ _ => trivial

/-- Building ends with a mistake. -/
theorem Yields.mistaken {mistake : BuildError} {after : Store → α → Prop} :
    Yields enclosing before (throw mistake) after :=
  fun _ _ _ b hb => by cases hb

/-- The result of a declaration is taken over. -/
theorem Yields.ofDefinition {result : Except DefinitionError Schema} {after : Store → Schema → Prop}
    (h : ∀ schema, result = .ok schema → ∀ store, before store → after store schema) :
    Yields enclosing before (Build.ofDefinition result) after := by
  cases result with
  | ok schema => exact .done fun store _ hbefore => h schema rfl store hbefore
  | error mistake => exact .mistaken

/-- What has been built already stays anchored while more is built. -/
theorem Yields.more {schema : Schema} {step : Build α} {after : Store → α → Prop}
    (hextends : step.Extends) (h : Yields enclosing (fun _ => True) step after) :
    Yields enclosing (AnchoredIn enclosing · schema) step
      (fun store a => after store a ∧ AnchoredIn enclosing store schema) :=
  fun workshop hready hs a ha =>
    ⟨h workshop hready trivial a ha, hs.grows hready.sound (hextends workshop) hready.reserved⟩

/-- A cell is added, in a state in which a reference to it is anchored. -/
theorem Yields.allocate {state : Cell} {hold : Hold}
    (h : ∀ store, store.Ready enclosing → before store →
      (Schema.reference ⟨store.size, hold⟩).Anchored (store.allocate state).2
        (enclosing.map Prod.snd)) :
    Yields enclosing before
      (Build.allocate state >>= fun cell => Pure.pure (Schema.reference ⟨cell, hold⟩))
      (AnchoredIn enclosing) := by
  intro workshop hready hbefore schema hs
  cases hs
  exact h _ hready hbefore

end Build

section Declarations

/-- A declared union has the members that it was declared with. -/
theorem Schema.unionOf_eq_ok {members : List Schema} {schema : Schema}
    (h : Schema.unionOf members = .ok schema) : schema = .union members := by
  unfold Schema.unionOf at h
  split at h <;> cases h
  rfl

/-- A declared intersection has the members that it was declared with. -/
theorem Schema.intersectionOf_eq_ok {members : List Schema} {schema : Schema}
    (h : Schema.intersectionOf members = .ok schema) : schema = .intersection members := by
  unfold Schema.intersectionOf at h
  split at h <;> cases h
  rfl

/-- A declaration has no fields but those that it was given. -/
theorem Declaration.mem_addFields {declaration : Declaration} {fields : List (Field Schema)}
    {field : Field Schema} (h : field ∈ (declaration.addFields fields).fields) :
    field ∈ declaration.fields ∨ field ∈ fields := by
  induction fields generalizing declaration with
  | nil => exact .inl h
  | cons first rest ih =>
    have hfirst : ∀ f ∈ (declaration.field first).fields, f ∈ declaration.fields ∨ f = first := by
      intro f hf
      unfold Declaration.field at hf
      split at hf
      · exact .inl hf
      · split at hf
        · exact .inl hf
        · split at hf
          · exact .inl hf
          · rcases List.mem_append.mp hf with hf | hf
            · exact .inl hf
            · exact .inr (List.mem_singleton.mp hf)
    rcases ih h with hm | hm
    · rcases hfirst field hm with hm | rfl
      · exact .inl hm
      · exact .inr List.mem_cons_self
    · exact .inr (List.mem_cons_of_mem _ hm)

/-- A complete declaration is a struct or an object with its fields. -/
theorem Declaration.complete_fields {declaration : Declaration} {schema : Schema}
    (h : declaration.complete = .ok schema) : schema.fields? = some declaration.fields := by
  unfold Declaration.complete at h
  split at h
  · cases h
  · cases h
    rfl
  · split at h <;> cases h
    rfl

end Declarations

/-- Declared fields whose schemas are anchored make an anchored struct or object. -/
theorem Schema.Anchored.of_declaration {store : Store} {unfinished : List CellId}
    {declaration : Declaration} {fields : List (Field Schema)} {schema : Schema}
    (hnone : declaration.fields = [])
    (h : ∀ field ∈ fields, field.schema.Anchored store unfinished)
    (hschema : (declaration.addFields fields).complete = .ok schema) :
    schema.Anchored store unfinished := by
  have hfields := Declaration.complete_fields hschema
  refine .of_parts (fun r heq => by rw [heq] at hfields; cases hfields) fun part hp => ?_
  have hpart : ∃ field ∈ (declaration.addFields fields).fields, field.schema = part := by
    cases schema with
    | struct | object =>
      cases hfields
      exact List.mem_map.mp hp
    | _ => cases hfields
  obtain ⟨field, hm, rfl⟩ := hpart
  refine h field ((Declaration.mem_addFields hm).resolve_left fun hm => ?_)
  rw [hnone] at hm
  cases hm

/-- A definition that is complete is anchored by its handle. -/
theorem Build.Yields.recursive {enclosing : List (String × CellId)} {label : String}
    {body : Blueprint}
    (h : ∀ cell, Build.Yields ((label, cell) :: enclosing) (fun _ => True)
      (Blueprint.buildIn ((label, cell) :: enclosing) body)
      (AnchoredIn ((label, cell) :: enclosing))) :
    Build.Yields enclosing (fun _ => True) (Blueprint.buildIn enclosing (.recursive label body))
      (AnchoredIn enclosing) := by
  intro workshop hready _ handle hh
  have hbegin := hready.begin label
  have hgrows := Blueprint.buildIn_extends ((label, workshop.store.size) :: enclosing) body
    workshop.reserve
  have hanchored := h workshop.store.size workshop.reserve hbegin trivial
  rw [Blueprint.run_recursive] at hh ⊢
  rcases hb : (Blueprint.buildIn ((label, workshop.store.size) :: enclosing) body).run
    workshop.reserve with ⟨mistake | schema, later⟩ <;> rw [hb] at hh hgrows hanchored
  · cases hh
  · cases hh
    have hreserved := (hbegin.grows hgrows).reserved
    obtain ⟨hin, hundefined⟩ := hreserved _ List.mem_cons_self
    have hfilled : (later.store.setCell workshop.store.size (.filled schema)).cells
        workshop.store.size = .filled schema := if_pos rfl
    refine (hanchored schema rfl).behind rfl (fun _ => ?_) (Nat.le_refl _) hin ?_
      fun c hne => if_neg hne
    · rw [Store.contents, hundefined]
      rfl
    · rw [Store.contents, hfilled]
      rfl

/-- A mention of a definition that is not complete is anchored but for this definition. -/
theorem Store.Ready.anchored_self {enclosing : List (String × CellId)} {store : Store}
    (hready : store.Ready enclosing) {cell : CellId} (hcell : cell ∈ enclosing.map Prod.snd) :
    AnchoredIn enclosing store (.reference ⟨cell, .back⟩) := by
  refine .of_no_content ?_ (.inl hcell)
  rw [Store.contents, (hready.reserved cell hcell).2]
  rfl

/-- A schema that is delayed is anchored by the reference that delays it. -/
theorem Schema.Anchored.delayed {store : Store} {schema : Schema} {unfinished : List CellId}
    (h : schema.Anchored store unfinished) (counter : Option String) :
    (Schema.reference ⟨store.size, .thunk⟩).Anchored
      (store.allocate (.pending (.constant schema counter))).2 unfinished := by
  have hstate : (store.allocate (.pending (.constant schema counter))).2.cells store.size =
      .pending (.constant schema counter) := if_pos rfl
  refine behind (r := ⟨store.size, .thunk⟩) rfl (h.mono (List.subset_cons_self _ _))
    (fun hlt => absurd hlt (Nat.lt_irrefl _)) (Nat.le_succ _) (Nat.lt_succ_self _) ?_
    fun c hne => if_neg hne
  rw [Store.contents, hstate]
  rfl

/-- A reference to what is bound to a name later is anchored. -/
theorem Schema.Anchored.late {unfinished : List CellId} (store : Store) (name : String) :
    (Schema.reference ⟨store.size, .thunk⟩).Anchored
      (store.allocate (.pending (.binding name))).2 unfinished := by
  have hstate : (store.allocate (.pending (.binding name))).2.cells store.size =
      .pending (.binding name) := if_pos rfl
  refine of_no_content ?_ (.inr (secures_self rfl (Nat.lt_succ_self _) ?_))
  · rw [Store.contents, hstate]
    rfl
  · rw [hstate]
    rfl

section Combinators

variable {enclosing : List (String × CellId)}

/-- A schema without parts and references is anchored. -/
theorem Build.Yields.plain {schema : Schema} (hne : ∀ r, schema ≠ .reference r)
    (hparts : schema.parts = []) :
    Build.Yields enclosing (fun _ => True) (pure schema)
      (AnchoredIn enclosing) :=
  .done fun store _ _ => .of_parts hne fun part hp => by
    rw [hparts] at hp
    cases hp

/-- A schema with one part is anchored if the part is. -/
theorem Build.Yields.single {step : Build Schema} {make : Schema → Schema}
    (hparts : ∀ schema, (make schema).parts = [schema]) (hextends : step.Extends)
    (h : Build.Yields enclosing (fun _ => True) step
      (AnchoredIn enclosing)) :
    Build.Yields enclosing (fun _ => True) (step >>= fun schema => pure (make schema))
      (AnchoredIn enclosing) := by
  refine .bind hextends h fun schema => .done fun store _ hs =>
    .of_parts (fun r heq => ?_) fun part hp => ?_
  · have hempty := hparts schema
    rw [heq] at hempty
    cases hempty
  · rw [hparts, List.mem_singleton] at hp
    rw [hp]
    exact hs

end Combinators

namespace Blueprint

/-- Whatever is built inside of definitions is anchored, but for these definitions. -/
def anchoring : Construction where
  ofBlueprint enclosing blueprint := blueprint.embedsHandles →
    Build.Yields enclosing (fun _ => True) (buildIn enclosing blueprint) (AnchoredIn enclosing)
  ofFields enclosing fields := fieldsEmbedHandles fields →
    Build.Yields enclosing (fun _ => True) (buildFields enclosing fields)
      (fun store built => ∀ field ∈ built, AnchoredIn enclosing store field.schema)
  ofMembers enclosing members := allEmbedHandles members →
    Build.Yields enclosing (fun _ => True) (buildMembers enclosing members)
      (fun store built => ∀ member ∈ built, AnchoredIn enclosing store member)

theorem anchoring_inductive : anchoring.Inductive where
  leaf enclosing kind _ := by
    rw [buildIn]
    exact .plain (fun r heq => by cases heq) rfl
  double enclosing value _ := by
    rw [buildIn]
    refine .ofDefinition fun schema hschema store _ => ?_
    cases hliteral : Literal.ofExtended value with
    | error mistake =>
      rw [hliteral] at hschema
      cases hschema
    | ok literal =>
      rw [hliteral] at hschema
      cases hschema
      exact .of_parts (fun r heq => by cases heq) fun part hp => by cases hp
  json enclosing _ := by
    rw [buildIn]
    exact .plain (fun r heq => by cases heq) rfl
  any enclosing _ := by
    rw [buildIn]
    exact .plain (fun r heq => by cases heq) rfl
  list enclosing element ih h := by
    rw [buildIn]
    exact .single (fun _ => rfl) (buildIn_extends _ _) (ih h)
  nullable enclosing inner ih h := by
    rw [buildIn]
    exact .single (fun _ => rfl) (buildIn_extends _ _) (ih h)
  record enclosing entry ih h := by
    rw [buildIn]
    exact .single (fun _ => rfl) (buildIn_extends _ _) (ih h)
  union enclosing members ih h := by
    rw [buildIn]
    refine .bind (buildMembers_extends _ _) (ih h) fun built =>
      .ofDefinition fun schema hschema store hbuilt => ?_
    rw [Schema.unionOf_eq_ok hschema]
    exact .of_parts (fun r heq => by cases heq) hbuilt
  intersection enclosing members ih h := by
    rw [buildIn]
    refine .bind (buildMembers_extends _ _) (ih h) fun built =>
      .ofDefinition fun schema hschema store hbuilt => ?_
    rw [Schema.intersectionOf_eq_ok hschema]
    exact .of_parts (fun r heq => by cases heq) hbuilt
  struct enclosing fields ih h := by
    rw [buildIn]
    exact .bind (buildFields_extends _ _) (ih h) fun built =>
      .ofDefinition fun schema hschema store hbuilt => .of_declaration rfl hbuilt hschema
  object enclosing name fields ih h := by
    rw [buildIn]
    exact .bind (buildFields_extends _ _) (ih h) fun built =>
      .ofDefinition fun schema hschema store hbuilt => .of_declaration rfl hbuilt hschema
  recursive enclosing label body ih h := .recursive fun cell => ih cell h
  mention enclosing label inspected _ := by
    rw [buildIn]
    cases hlookup : Entries.lookup label enclosing with
    | none => exact .mistaken
    | some cell =>
      have hcell : cell ∈ enclosing.map Prod.snd :=
        List.mem_map.mpr ⟨_, Entries.mem_of_lookup hlookup, rfl⟩
      cases inspected with
      | true =>
        exact .bind (.inspect _) .inspect fun _ =>
          .done fun store hready _ => hready.anchored_self hcell
      | false => exact .done fun store hready _ => hready.anchored_self hcell
  delayed enclosing body counter ih h := by
    rw [buildIn]
    exact .bind (buildIn_extends _ _) (ih h) fun schema =>
      .allocate fun store _ hs => hs.delayed counter
  late enclosing name _ := by
    rw [buildIn]
    exact .allocate fun store _ _ => .late store name
  bound enclosing name _ := by
    rw [buildIn]
    refine .bind (fun _ => .start) .read fun workshop => ?_
    cases hb : workshop.store.bound? name with
    | none => exact .mistaken
    | some schema =>
      refine .done fun store hready heq => ?_
      rw [← heq] at hready ⊢
      have hbound : schema ∈ workshop.store.bindings.map Prod.snd :=
        List.mem_map.mpr ⟨_, Entries.mem_of_lookup hb, rfl⟩
      exact (hready.sound schema (.inr hbound)).mono (List.nil_subset _)
  resolved enclosing body _ h := by cases h
  noFields enclosing _ := by
    rw [buildFields]
    exact .done fun store _ _ field hm => by cases hm
  moreFields enclosing field rest ihb ihr h := by
    rw [fieldsEmbedHandles, Bool.and_eq_true] at h
    rw [buildFields]
    have hextends := buildFields_extends enclosing rest
    refine .bind (buildIn_extends _ _) (ihb h.1) fun schema =>
      .bind hextends (.more hextends (ihr h.2)) fun built => .done fun store _ hs => ?_
    exact List.forall_mem_cons.mpr ⟨hs.2, hs.1⟩
  noMembers enclosing _ := by
    rw [buildMembers]
    exact .done fun store _ _ member hm => by cases hm
  moreMembers enclosing member rest ihm ihr h := by
    rw [allEmbedHandles, Bool.and_eq_true] at h
    rw [buildMembers]
    have hextends := buildMembers_extends enclosing rest
    refine .bind (buildIn_extends _ _) (ihm h.1) fun schema =>
      .bind hextends (.more hextends (ihr h.2)) fun built => .done fun store _ hs => ?_
    exact List.forall_mem_cons.mpr ⟨hs.2, hs.1⟩

/-- What is built from a blueprint inside of definitions is anchored, but for these
definitions. -/
theorem buildIn_anchored (enclosing : List (String × CellId)) (blueprint : Blueprint) :
    blueprint.embedsHandles →
    Build.Yields enclosing (fun _ => True) (buildIn enclosing blueprint)
      (AnchoredIn enclosing) :=
  anchoring_inductive.holds.1 enclosing blueprint

end Blueprint

end Conformance
