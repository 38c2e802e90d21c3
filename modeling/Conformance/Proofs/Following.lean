import Conformance.Proofs.Acceptance

/-!
# What a check does to a session

A check touches the store in one way: it follows cells, and only such as its schema
mentions somewhere in its graph. A cell that is not followed keeps its state, and a cell
that is followed holds its target from then on. In the journal a check leaves no
invocation of a handler.
-/

namespace Conformance

/-- A handler that was invoked, with its input and the number of handlers after it. -/
structure Invocation where
  /-- The label of the handler. -/
  label : String
  /-- What it was given. -/
  input : Json
  /-- How many handlers came after it. -/
  remaining : Nat

/-- The invocation that an event tells of, if it tells of one. -/
def Event.invocation? : Event → Option Invocation
  | .handlerInvoked label input remaining => some ⟨label, input, remaining⟩
  | _ => none

/-- The handlers that were invoked so far, in order. -/
def Session.invocations (session : Session) : List Invocation :=
  session.journal.toList.filterMap Event.invocation?

/-- An event adds at most its own invocation. -/
theorem Session.invocations_record (event : Event) (session : Session) :
    (Session.record event session).2.invocations =
      session.invocations ++ event.invocation?.toList := by
  have hjournal : (Session.record event session).2.journal = session.journal.push event := rfl
  rw [Session.invocations, Session.invocations, hjournal, Array.toList_push,
    List.filterMap_append]
  cases h : event.invocation? <;> simp [h]

/-- Following a cell leaves the others in their state. -/
theorem Store.cells_fetch?_of_ne (store : Store) {cell other : CellId} (h : cell ≠ other) :
    (Store.fetch? other store).2.cells cell = store.cells cell := by
  unfold Store.fetch?
  cases store.cells other with
  | pending resolver => exact if_neg h
  | undefined | filled | released => rfl

/-- A store comes about from another by following cells of a kind, one after the other. -/
inductive Store.Follows (P : CellId → Prop) (start : Store) : Store → Prop
  /-- No cell is followed. -/
  | start : Follows P start start
  /-- One more cell is followed. -/
  | step {store : Store} {cell : CellId} (h : Follows P start store) (hc : P cell) :
    Follows P start (Store.fetch? cell store).2

namespace Store.Follows

variable {P : CellId → Prop} {start store later : Store}

/-- Following some cells and then others is following them all. -/
theorem trans (h : start.Follows P store) (h' : store.Follows P later) : start.Follows P later := by
  induction h' with
  | start => exact h
  | step _ hc ih => exact ih.step hc

/-- Every cell leads where it did. -/
theorem target? (h : start.Follows P later) : later.target? = start.target? := by
  induction h with
  | start => rfl
  | @step store cell _ _ ih => rw [Store.target?_fetch?_eq store cell, ih]

/-- A cell is as it was, or it was followed and holds its target. -/
theorem peek? (h : start.Follows P later) (cell : CellId) :
    later.peek? cell = start.peek? cell ∨ P cell ∧ later.peek? cell = start.target? cell := by
  induction h with
  | start => exact .inl rfl
  | @step store other h hc ih =>
    by_cases heq : cell = other
    · subst heq
      refine .inr ⟨hc, ?_⟩
      rw [Store.peek?_fetch?, h.target?]
    · rw [Store.peek?, Store.cells_fetch?_of_ne store heq]
      exact ih

end Store.Follows

/-- A session comes about from another by following cells of a kind, and no handler is
invoked. -/
structure Session.Follows (P : CellId → Prop) (start later : Session) : Prop where
  /-- The store changes by following cells. -/
  store : start.store.Follows P later.store
  /-- The journal tells of no further handler. -/
  invocations : later.invocations = start.invocations

namespace Session.Follows

variable {P : CellId → Prop} {start session later : Session}

/-- Nothing happens. -/
theorem refl (session : Session) : session.Follows P session := ⟨.start, rfl⟩

/-- One thing happens after the other. -/
theorem trans (h : start.Follows P session) (h' : session.Follows P later) :
    start.Follows P later :=
  ⟨h.store.trans h'.store, h'.invocations.trans h.invocations⟩

/-- An event that tells of no handler is recorded. -/
theorem record (h : start.Follows P session) {event : Event} (he : event.invocation? = none) :
    start.Follows P (Session.record event session).2 := by
  refine ⟨h.store, ?_⟩
  rw [Session.invocations_record, he, Option.toList_none, List.append_nil, h.invocations]

/-- A step on the store follows cells. -/
theorem onStore {α : Type} {step : StateM Store α}
    (h : session.store.Follows P (step session.store).2) :
    session.Follows P (Session.onStore step session).2 := ⟨h, rfl⟩

end Session.Follows

/-- Every reference in the graph of a schema leads through a cell of a kind. -/
def Schema.Within (P : CellId → Prop) (targets : Targets) (root : Schema) : Prop :=
  ∀ r, Reaches targets root (.reference r) → P r.cell

/-- A question to a store of a graph that is put by following cells of a kind, and goes on
with what the graph has behind them. -/
inductive Asks (P : CellId → Prop) (targets : Targets) {α : Type} : StateM Store α → Prop
  /-- Nothing is asked. -/
  | pure (answer : α) : Asks P targets (pure answer)
  /-- A cell is followed first. -/
  | fetch {cell : CellId} {next : Option Schema → StateM Store α} (hc : P cell)
    (h : Asks P targets (next (targets cell))) : Asks P targets (Store.fetch? cell >>= next)

section Questions

variable {P : CellId → Prop} {targets : Targets} {root : Schema} {α β : Type}

/-- A question may depend on the answer to another one. -/
theorem Asks.bind {ask : StateM Store α} {next : α → StateM Store β} (h : Asks P targets ask)
    (hnext : ∀ answer, Asks P targets (next answer)) : Asks P targets (ask >>= next) := by
  induction h with
  | pure answer =>
    rw [pure_bind]
    exact hnext answer
  | fetch hc _ ih =>
    rw [bind_assoc]
    exact .fetch hc ih

/-- Following a cell and going on with what it leads to. -/
theorem Store.fetch?_bind {store : Store} {cell : CellId} {target : Option Schema}
    (hfirst : (Store.fetch? cell store).1 = target) (next : Option Schema → StateM Store α) :
    (Store.fetch? cell >>= next) store = next target (Store.fetch? cell store).2 := by
  rw [← hfirst]
  rfl

/-- A question follows the cells it asks for. -/
theorem Asks.follows {ask : StateM Store α} (h : Asks P targets ask) {store : Store}
    (hs : store.target? = targets) : store.Follows P (ask store).2 := by
  induction h generalizing store with
  | pure answer => exact .start
  | @fetch cell next hc _ ih =>
    have hfetch : store.Follows P (Store.fetch? cell store).2 := .step .start hc
    have hfirst : (Store.fetch? cell store).1 = targets cell := by rw [Store.fetch?_fst, hs]
    rw [Store.fetch?_bind hfirst]
    exact hfetch.trans (ih (hfetch.target?.trans hs))

/-- Every function of the question for absence asks in the graph of a schema only. -/
def askingWithin (P : CellId → Prop) (targets : Targets) (root : Schema) : AbsenceWalk where
  ofSchema entered schema := Schema.Reaches targets root schema →
    Asks P targets (schema.acceptsAbsentWithin entered)
  ofAny entered members := (∀ member ∈ members, Schema.Reaches targets root member) →
    Asks P targets (Schema.anyAcceptsAbsent entered members)
  ofAll entered members := (∀ member ∈ members, Schema.Reaches targets root member) →
    Asks P targets (Schema.allAcceptAbsent entered members)

theorem askingWithin_inductive (h : root.Within P targets) :
    (askingWithin P targets root).Inductive where
  nullable entered inner _ := by
    rw [Schema.acceptsAbsentWithin]
    exact .pure true
  any entered _ := by
    rw [Schema.acceptsAbsentWithin]
    exact .pure true
  union entered members ih hr := by
    rw [Schema.acceptsAbsentWithin]
    exact ih fun member hm => hr.part hm
  intersection entered members ih hr := by
    rw [Schema.acceptsAbsentWithin]
    exact ih fun member hm => hr.part hm
  followed entered r henter ih hr := by
    rw [Schema.acceptsAbsentWithin, if_pos henter]
    refine .fetch (h r hr) ?_
    cases ht : targets r.cell with
    | none => exact .pure false
    | some target => exact ih target (hr.target ht)
  blocked entered r henter _ := by
    rw [Schema.acceptsAbsentWithin, if_neg henter]
    exact .pure false
  value entered schema hvalue _ := by
    rw [Schema.acceptsAbsentWithin_of_needsValue hvalue]
    exact .pure false
  anyDone entered _ := by
    rw [Schema.anyAcceptsAbsent]
    exact .pure false
  anyMore entered member rest ihm ihr hr := by
    obtain ⟨hfirst, hrest⟩ := List.forall_mem_cons.mp hr
    rw [Schema.anyAcceptsAbsent]
    refine (ihm hfirst).bind fun answer => ?_
    cases answer with
    | true => exact .pure true
    | false => exact ihr hrest
  allDone entered _ := by
    rw [Schema.allAcceptAbsent]
    exact .pure true
  allMore entered member rest ihm ihr hr := by
    obtain ⟨hfirst, hrest⟩ := List.forall_mem_cons.mp hr
    rw [Schema.allAcceptAbsent]
    refine (ihm hfirst).bind fun answer => ?_
    cases answer with
    | true => exact ihr hrest
    | false => exact .pure false

/-- Whether a schema accepts absence is asked in the graph of the schema only. -/
theorem Schema.Within.asks_acceptsAbsentWithin (h : root.Within P targets)
    (entered : List CellId) (schema : Schema) (hr : Reaches targets root schema) :
    Asks P targets (schema.acceptsAbsentWithin entered) :=
  (askingWithin_inductive h).holds entered schema hr

/-- The concrete schema behind references is asked for in the graph of the schema only. -/
theorem Schema.Within.asks_resolveWithin? (h : root.Within P targets) (hops : Nat)
    {schema : Schema} (hr : Reaches targets root schema) :
    Asks P targets (schema.resolveWithin? hops) := by
  induction hops generalizing schema with
  | zero => exact .pure none
  | succ hops ih =>
    cases schema with
    | reference r =>
      refine .fetch (h r hr) ?_
      cases ht : targets r.cell with
      | none => exact .pure none
      | some target => exact ih (hr.target ht)
    | _ => exact .pure _

end Questions

/-- Every function of a check follows cells of the graph and invokes no handler. -/
def following (P : CellId → Prop) (targets : Targets) (root : Schema) : Walk where
  ofSchema rules schema value here := ∀ session : Session, session.store.target? = targets →
    Schema.Reaches targets root schema →
    session.Follows P (check rules schema value here session).2
  ofChild rules child here := ∀ session : Session, session.store.target? = targets →
    Schema.Reaches targets root child.schema →
    session.Follows P (checkChild rules child here session).2
  ofChildren rules children here := ∀ session : Session, session.store.target? = targets →
    (∀ child ∈ children, Schema.Reaches targets root child.schema) →
    session.Follows P (checkChildren rules children here session).2
  ofMembers rules index members value here := ∀ session : Session,
    session.store.target? = targets → (∀ member ∈ members, Schema.Reaches targets root member) →
    session.Follows P (checkMembers rules index members value here session).2
  ofEvery rules index members merged value here := ∀ session : Session,
    session.store.target? = targets → (∀ member ∈ members, Schema.Reaches targets root member) →
    session.Follows P (checkEvery rules index members merged value here session).2

theorem following_inductive {P : CellId → Prop} {targets : Targets} {root : Schema}
    (hwithin : root.Within P targets) : (following P targets root).Inductive where
  leaf rules leaf value here session _ _ := by
    rw [check_leaf]
    cases rules.policy.check leaf value <;> exact (Session.Follows.refl session).record rfl
  null rules inner value here hnull session _ _ := by
    rw [check_nullable_null _ _ _ _ _ hnull]
    exact .refl session
  nullable rules inner value here hnull ih session hs hr := by
    rw [check_nullable _ _ _ _ _ hnull]
    exact ih session hs (hr.part (List.mem_singleton_self _))
  union rules members value here ih session hs hr := by
    have hmembers := ih session hs fun member hm => hr.part hm
    rw [check_union]
    rcases hm : checkMembers rules.failFast 0 members value here session with ⟨_ | _, later⟩ <;>
      rw [hm] at hmembers <;> exact hmembers
  intersection rules members value here ih session hs hr := by
    rw [check_intersection]
    exact ih session hs fun member hm => hr.part hm
  followed rules r value here he ih session hs hr := by
    have hfetch : session.Follows P (Session.onStore (Store.fetch? r.cell) session).2 :=
      .onStore (.step .start (hwithin r hr))
    obtain ⟨later, hf, hl⟩ := Session.onStore_fetch? session r.cell
    rw [check_reference _ _ _ _ he]
    rw [hf, hs] at hfetch ⊢
    cases ht : targets r.cell with
    | none =>
      rw [ht] at hfetch
      exact hfetch
    | some target =>
      rw [ht] at hfetch
      exact hfetch.trans (ih target later (hl.trans hs) (hr.target ht))
  blocked rules r value here he session _ _ := by
    rw [check_reference_blocked _ _ _ _ he]
    exact .refl session
  plain rules schema value here hstructural hview session _ _ := by
    rw [check_plain _ _ _ _ hstructural hview]
    exact .refl session
  mismatch rules schema value here expected hview session _ _ := by
    rw [check_mismatch _ _ _ _ hview]
    exact .refl session
  deep rules schema value here children assemble hc hd session _ _ := by
    rw [check_deep hc hd]
    exact .refl session
  container rules schema value here children assemble hc hd ih session hs hr := by
    have hchildren := ih session hs fun child hm => hr.child hc hm
    rw [check_container hc hd]
    rcases hm : checkChildren rules children here session with ⟨_ | _, later⟩ <;>
      rw [hm] at hchildren <;> exact hchildren
  present rules segment schema value here ih session hs hr := by
    have hvalue := ih session hs hr
    rw [checkChild_present]
    rcases hm : check rules schema value (here.child segment) session with ⟨_ | _, later⟩ <;>
      rw [hm] at hvalue <;> exact hvalue
  absent rules name schema here session hs hr := by
    have habsent : session.Follows P (Session.onStore schema.acceptsAbsent session).2 :=
      .onStore ((hwithin.asks_acceptsAbsentWithin [] schema hr).follows hs)
    rw [checkChild_absent]
    rcases hm : Session.onStore schema.acceptsAbsent session with ⟨_ | _, later⟩ <;>
      rw [hm] at habsent <;> exact habsent
  noChildren rules here session _ _ := by
    rw [checkChildren_nil]
    exact .refl session
  moreChildren rules child rest here ihc ihr session hs hr := by
    obtain ⟨hfirst, hrest⟩ := List.forall_mem_cons.mp hr
    have hchild := ihc session hs hfirst
    rw [checkChildren_cons]
    rcases hm : checkChild rules child here session with ⟨report | output, later⟩ <;>
      rw [hm] at hchild <;>
      have hothers := ihr later (hchild.store.target?.trans hs) hrest <;> dsimp only
    · split
      · rcases hm' : checkChildren rules rest here later with ⟨_ | _, last⟩ <;>
          rw [hm'] at hothers <;> exact hchild.trans hothers
      · exact hchild
    · rcases hm' : checkChildren rules rest here later with ⟨_ | _, last⟩ <;>
        rw [hm'] at hothers <;> exact hchild.trans hothers
  noMembers rules index value here session _ _ := by
    rw [checkMembers_nil]
    exact .refl session
  moreMembers rules index member rest value here ihm ihr session hs hr := by
    obtain ⟨hfirst, hrest⟩ := List.forall_mem_cons.mp hr
    have hmember := ihm session hs hfirst
    rw [checkMembers_cons]
    rcases hm : check rules member value here session with ⟨report | output, later⟩ <;>
      rw [hm] at hmember
    · have hrecord : session.Follows P
          (Session.record (.memberRejected index report.head) later).2 := hmember.record rfl
      have hothers := ihr (Session.record (.memberRejected index report.head) later).2
        (hrecord.store.target?.trans hs) hrest
      dsimp only
      rcases hm' : checkMembers rules (index + 1) rest value here
          (Session.record (.memberRejected index report.head) later).2 with ⟨_ | _, last⟩ <;>
        rw [hm'] at hothers <;> exact hrecord.trans hothers
    · exact hmember
  everyDone rules index merged value here session _ _ := by
    rw [checkEvery_nil]
    exact .refl session
  everyMore rules index member rest merged value here ihm ihr session hs hr := by
    obtain ⟨hfirst, hrest⟩ := List.forall_mem_cons.mp hr
    have hmember := ihm session hs hfirst
    rw [checkEvery_cons]
    rcases hm : check rules member value here session with ⟨report | output, later⟩ <;>
      rw [hm] at hmember
    · exact hmember
    · dsimp only
      cases mergeInto merged output with
      | error way => exact hmember
      | ok both => exact hmember.trans (ihr both later (hmember.store.target?.trans hs) hrest)

/-- A validation follows cells of the graph of its schema and invokes no handler. -/
theorem Validator.validate_follows {P : CellId → Prop} (validator : Validator) (value : Json)
    (session : Session) (hwithin : validator.schema.Within P session.store.target?) :
    session.Follows P (validator.validate value session).2 := by
  have hcheck := (following_inductive hwithin).holds validator.toRules validator.schema value .root
    session rfl .root
  rw [Validator.validate_eq]
  rcases hc : check validator.toRules validator.schema value .root session with ⟨_ | _, later⟩ <;>
    rw [hc] at hcheck
  · exact hcheck.record rfl
  · exact hcheck

end Conformance
