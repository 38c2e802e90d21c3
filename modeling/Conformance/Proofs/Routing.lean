import Conformance.Proofs.Abreast
import Conformance.Proofs.Chains
import Mathlib.Data.Set.Insert

/-!
# Routing by schema

A chain that starts with mounted routers tries them in order. A router that does not accept
the input only follows cells of its own schema and passes the input on as it is; the first
that accepts does with it what it would do by itself. The reports are the same to the
letter if the routers share no cell that is left to resolve, since a type expression names
what has been resolved.
-/

namespace Conformance

variable {γ : Type}

/-- The schemas that a script may have values validated by. -/
def Script.schemas {α : Type} : Script α → Set Schema
  | .done _ => ∅
  | .validate validator _ next =>
    insert validator.schema {schema | ∃ outcome, schema ∈ Script.schemas (next outcome)}

/-- What a script may come to, whatever the outcomes on its way. -/
def Script.results {α : Type} : Script α → Set α
  | .done result => {result}
  | .validate _ _ next => {result | ∃ outcome, result ∈ Script.results (next outcome)}

/-- The schemas that a handler may have values validated by, in its turn and when an answer
comes back. -/
def Step.schemas (step : Step) : Set Schema :=
  Script.schemas step ∪ {schema | ∃ input after answer,
    Move.handOn input after ∈ Script.results step ∧ schema ∈ Script.schemas (after answer)}

/-- The schemas that the handlers and gates of a chain check by, those behind mounted routers
included. -/
def Chain.schemas : Chain γ → Set Schema
  | [] => ∅
  | .custom _ handle :: rest =>
    {schema | ∃ request, schema ∈ Step.schemas (handle request)} ∪ Chain.schemas rest
  | .router gate output chain :: rest =>
    {gate.schema, output.schema} ∪ (Chain.schemas chain ∪ Chain.schemas rest)

/-- The schemas that a router checks by, with those of its chain. -/
def Router.schemas (router : Router γ) : Set Schema :=
  insert router.input.schema (insert router.output.schema (Chain.schemas router.chain))

/-- The cells that the references in the graphs of some schemas lead through. -/
def CellsOf (targets : Targets) (schemas : Set Schema) (cell : CellId) : Prop :=
  ∃ schema ∈ schemas, ∃ r, Schema.Reaches targets schema (.reference r) ∧ r.cell = cell

/-- A schema shares no cell with others that is left to resolve. -/
def Schema.Apart (store : Store) (schema : Schema) (others : Set Schema) : Prop :=
  ∀ cell, CellsOf store.target? {schema} cell → CellsOf store.target? others cell →
    store.peek? cell = store.target? cell

/-- The schemas of a chain are those of its links. -/
theorem Chain.schemas_cons (link : Handler γ) (rest : Chain γ) :
    Chain.schemas (link :: rest) = Chain.schemas [link] ∪ Chain.schemas rest := by
  cases link with
  | custom label handle => rw [Chain.schemas, Chain.schemas, Chain.schemas, Set.union_empty]
  | router gate output chain =>
    rw [Chain.schemas, Chain.schemas, Chain.schemas, Set.union_empty, Set.union_assoc]

/-- The schemas of a link are among those of its chain. -/
theorem Chain.schemas_subset {chain : Chain γ} {link : Handler γ} (h : link ∈ chain) :
    Chain.schemas [link] ⊆ Chain.schemas chain := by
  induction chain with
  | nil => cases h
  | cons first rest ih =>
    rw [Chain.schemas_cons first rest]
    rcases List.mem_cons.mp h with rfl | hm
    · exact Set.subset_union_left
    · exact (ih hm).trans Set.subset_union_right

/-- A validator rejects a value in a session. -/
def Validator.Rejects (validator : Validator) (value : Json) (session : Session) : Prop :=
  ∃ report, (validator.validate value session).1 = .error report

/-- Among the cells of some schemas are those of each. -/
theorem Schema.within_cellsOf {targets : Targets} {schemas : Set Schema} {schema : Schema}
    (h : schema ∈ schemas) : schema.Within (CellsOf targets schemas) targets :=
  fun r hr => ⟨schema, h, r, hr, rfl⟩

/-- Whether a value is rejected depends on the graph only. -/
theorem Validator.Rejects.of_graph {validator : Validator} {value : Json} {session later : Session}
    (h : validator.Rejects value session) (hgraph : later.store.target? = session.store.target?) :
    validator.Rejects value later := by
  obtain ⟨report, hreport⟩ := h
  obtain ⟨hfirst, _⟩ := validator.validate_gives value session
  obtain ⟨hlater, _⟩ := validator.validate_gives value later
  rw [validator.grounds_congr hgraph, ← hfirst, hreport] at hlater
  cases hl : (validator.validate value later).1 with
  | error other => exact ⟨other, hl⟩
  | ok output =>
    rw [hl] at hlater
    cases hlater

/-- Two sessions look alike at the cells of a kind, texts included, and saw the same
handlers invoked. -/
structure Session.Twin (P : CellId → Prop) (targets : Targets) (s t : Session) : Prop where
  /-- The stores look alike. -/
  alike : s.store.Alike P True targets t.store
  /-- The same handlers were invoked. -/
  invocations : t.invocations = s.invocations

/-- Two runs give the same and leave twins. -/
inductive Twins (P : CellId → Prop) (targets : Targets) {α : Type} :
    α × Session → α × Session → Prop
  /-- The result is the same. -/
  | intro {result : α} {later last : Session} (h : later.Twin P targets last) :
    Twins P targets (result, later) (result, last)

section Twins

variable {P : CellId → Prop} {targets : Targets} {s t : Session}

/-- Events that tell of the same handler, or of none, are recorded. -/
theorem Session.Twin.record (h : s.Twin P targets t) {event other : Event}
    (he : other.invocation? = event.invocation?) :
    (Session.record event s).2.Twin P targets (Session.record other t).2 := by
  refine ⟨h.alike, ?_⟩
  rw [Session.invocations_record, Session.invocations_record, he, h.invocations]

/-- A validation gives the same in twins. -/
theorem Session.Twin.validate (h : s.Twin P targets t) {validator : Validator}
    (hwithin : validator.schema.Within P targets) (value : Json) :
    Twins P targets (validator.validate value s) (validator.validate value t) := by
  have habreast := validator.validate_abreast value hwithin h.alike
  have hs := (validator.validate_proceeds value s).invocations_eq
  have ht := (validator.validate_proceeds value t).invocations_eq
  have hinvocations : (validator.validate value t).2.invocations =
      (validator.validate value s).2.invocations := by rw [ht, hs, h.invocations]
  generalize validator.validate value s = run at habreast hinvocations ⊢
  generalize validator.validate value t = other at habreast hinvocations ⊢
  cases habreast with
  | ok halike => exact .intro ⟨halike, hinvocations⟩
  | error he halike =>
    rw [he.2 trivial]
    exact .intro ⟨halike, hinvocations⟩

/-- The check of an answer gives the same in twins. -/
theorem Session.Twin.checkAnswer (h : s.Twin P targets t) {output : Validator}
    (hwithin : output.schema.Within P targets) (answer : Answer) :
    Twins P targets (checkAnswer output answer s) (checkAnswer output answer t) := by
  cases answer with
  | error failure => exact .intro h
  | ok produced =>
    have hvalidate := h.validate hwithin produced
    rw [checkAnswer_ok, checkAnswer_ok]
    generalize output.validate produced s = run at hvalidate ⊢
    generalize output.validate produced t = other at hvalidate ⊢
    cases hvalidate with
    | @intro outcome later last htwin =>
      cases outcome with
      | ok accepted => exact .intro htwin
      | error report => exact .intro (htwin.record rfl)

/-- A router does the same with an accepted input in twins if its handlers do. -/
theorem Session.Twin.dispatch (h : s.Twin P targets t) (router : Router γ) {context : γ}
    {accepted : Json} (houtput : router.output.schema.Within P targets)
    (hchain : ∀ s t : Session, s.Twin P targets t →
      Twins P targets (Chain.handle context router.chain accepted s)
        (Chain.handle context router.chain accepted t)) :
    Twins P targets (router.dispatch context accepted s) (router.dispatch context accepted t) := by
  have hhandlers := hchain _ _
    (h.record (rfl : (Event.chainStarted router.chain.length).invocation? = _))
  rw [Router.dispatch_eq, Router.dispatch_eq, Chain.run_eq, Chain.run_eq]
  generalize Chain.handle context router.chain accepted
    (Session.record (.chainStarted router.chain.length) s).2 = run at hhandlers ⊢
  generalize Chain.handle context router.chain accepted
    (Session.record (.chainStarted router.chain.length) t).2 = other at hhandlers ⊢
  cases hhandlers with
  | intro htwin => exact htwin.checkAnswer houtput _

/-- A script does the same in twins. -/
theorem Session.Twin.script (h : s.Twin P targets t) {α : Type} {script : Script α}
    (hwithin : ∀ schema ∈ script.schemas, schema.Within P targets) :
    Twins P targets (script.run s) (script.run t) := by
  induction script generalizing s t with
  | done result => exact .intro h
  | validate validator value next ih =>
    have hvalidate := h.validate (hwithin _ (Set.mem_insert _ _)) value
    rw [Script.run]
    change Twins P targets ((next (validator.validate value s).1).run (validator.validate value s).2)
      ((next (validator.validate value t).1).run (validator.validate value t).2)
    generalize validator.validate value s = run at hvalidate ⊢
    generalize validator.validate value t = other at hvalidate ⊢
    cases hvalidate with
    | @intro outcome later last htwin =>
      exact ih outcome htwin fun schema hs => hwithin schema (.inr ⟨outcome, hs⟩)

/-- What a script comes to is among what it may come to. -/
theorem Script.run_mem_results {α : Type} (script : Script α) (session : Session) :
    (script.run session).1 ∈ script.results := by
  induction script generalizing session with
  | done result => exact Set.mem_singleton result
  | validate validator value next ih => exact ⟨_, ih _ _⟩

/-- A link does the same in twins, in its turn and when an answer comes back. -/
structure Handler.Steady (P : CellId → Prop) (targets : Targets) (link : Handler γ) : Prop where
  /-- It does the same in its turn. -/
  act : ∀ request (s t : Session), s.Twin P targets t →
    Twins P targets (link.act request s) (link.act request t)
  /-- It does the same for an answer that comes back. -/
  back : ∀ request start answer (s t : Session), s.Twin P targets t →
    Twins P targets ((link.act request start).1.back answer s)
      ((link.act request start).1.back answer t)

/-- A chain does the same in twins if its links do. -/
theorem Chain.handle_twins_of_links (context : γ) {chain : Chain γ}
    (hlinks : ∀ link ∈ chain, link.Steady P targets) (input : Json) {s t : Session}
    (h : s.Twin P targets t) :
    Twins P targets (Chain.handle context chain input s) (Chain.handle context chain input t) := by
  induction chain generalizing input s t with
  | nil =>
    rw [Chain.handle_nil, Chain.handle_nil]
    exact .intro h
  | cons link rest ih =>
    obtain ⟨hlink, hrest⟩ := List.forall_mem_cons.mp hlinks
    have hact := hlink.act ⟨input, context, rest.length⟩ s t h
    have hback := hlink.back ⟨input, context, rest.length⟩ s
    rw [Chain.handle_cons, Chain.handle_cons]
    generalize link.act ⟨input, context, rest.length⟩ s = run at hact hback ⊢
    generalize link.act ⟨input, context, rest.length⟩ t = other at hact ⊢
    cases hact with
    | @intro move later last htwin =>
      cases move with
      | answer reply => exact .intro htwin
      | handOn next after =>
        have hothers := ih hrest next htwin
        dsimp only
        generalize Chain.handle context rest next later = run at hothers ⊢
        generalize Chain.handle context rest next last = other at hothers ⊢
        cases hothers with
        | @intro answer later last htwin => exact hback answer later last htwin

/-- A link does the same in twins that look alike at the cells of its schemas. -/
theorem Handler.steady (link : Handler γ) :
    (∀ schema ∈ Chain.schemas [link], schema.Within P targets) → link.Steady P targets := by
  induction link using Handler.induction with
  | custom label handle =>
    intro hwithin
    rw [Chain.schemas] at hwithin
    refine ⟨fun request s t h => ?_, fun request start answer s t h => ?_⟩
    · have hscript := (h.record (rfl : (Event.handlerInvoked label request.input
        request.remaining).invocation? = _)).script fun schema hs =>
          hwithin schema (.inl ⟨request, .inl hs⟩)
      rw [Handler.act_custom, Handler.act_custom]
      generalize (handle request).run (Session.record
        (.handlerInvoked label request.input request.remaining) s).2 = run at hscript ⊢
      generalize (handle request).run (Session.record
        (.handlerInvoked label request.input request.remaining) t).2 = other at hscript ⊢
      cases hscript with
      | intro htwin => exact .intro htwin
    · have hresult := Script.run_mem_results (handle request)
        (Session.record (.handlerInvoked label request.input request.remaining) start).2
      rw [Handler.act_custom]
      cases hmove : ((handle request).run (Session.record
          (.handlerInvoked label request.input request.remaining) start).2).1 with
      | answer reply => exact .intro h
      | handOn next after =>
        rw [hmove] at hresult
        exact h.script fun schema hs =>
          hwithin schema (.inl ⟨request, .inr ⟨next, after, answer, hresult, hs⟩⟩)
  | router gate output chain ih =>
    intro hwithin
    rw [Chain.schemas] at hwithin
    have hgate : gate.schema.Within P targets := hwithin _ (.inl (.inl rfl))
    have houtput : output.schema.Within P targets := hwithin _ (.inl (.inr rfl))
    refine ⟨fun request s t h => ?_, fun request start answer s t h => ?_⟩
    · have hvalidate := h.validate hgate request.input
      rw [Handler.act_router, Handler.act_router]
      generalize gate.validate request.input s = run at hvalidate ⊢
      generalize gate.validate request.input t = other at hvalidate ⊢
      cases hvalidate with
      | @intro outcome later last htwin =>
        cases outcome with
        | error report => exact .intro (htwin.record rfl)
        | ok accepted =>
          have hdispatch := htwin.dispatch ⟨gate, output, chain⟩ houtput
            fun s t h => Chain.handle_twins_of_links request.context
              (fun link hm => ih link hm fun schema hs =>
                hwithin schema (.inr (.inl (Chain.schemas_subset hm hs)))) accepted h
          dsimp only
          generalize Router.dispatch ⟨gate, output, chain⟩ request.context accepted later = run
            at hdispatch ⊢
          generalize Router.dispatch ⟨gate, output, chain⟩ request.context accepted last = other
            at hdispatch ⊢
          cases hdispatch with
          | intro htwin => exact .intro htwin
    · rw [Handler.act_router]
      rcases gate.validate request.input start with ⟨report | accepted, later⟩ <;> exact .intro h

/-- A chain does the same in twins that look alike at the cells of its schemas. -/
theorem Chain.handle_twins (context : γ) {chain : Chain γ} (input : Json)
    (hwithin : ∀ schema ∈ Chain.schemas chain, schema.Within P targets) {s t : Session}
    (h : s.Twin P targets t) :
    Twins P targets (Chain.handle context chain input s) (Chain.handle context chain input t) :=
  Chain.handle_twins_of_links context (fun link hm => link.steady fun schema hs =>
    hwithin schema (Chain.schemas_subset hm hs)) input h

/-- A session that follows cells stays a twin of what it was at the cells of a kind, if it
follows only such of them as were resolved. -/
theorem Session.Follows.twin {Q : CellId → Prop} (h : s.Follows Q t)
    (hresolved : ∀ cell, Q cell → P cell → s.store.peek? cell = s.store.target? cell) :
    s.Twin P s.store.target? t := by
  refine ⟨⟨rfl, fun cell _ => by rw [h.store.target?], fun _ cell hp => ?_⟩, h.invocations⟩
  rcases h.store.peek? cell with hsame | ⟨hq, hfollowed⟩
  · exact hsame
  · rw [hfollowed, hresolved cell hq hp]

end Twins

/-- Mounted routers that reject the input pass it on as it is; they only follow cells of
their own input schemas. -/
theorem Chain.handle_passed {Q : CellId → Prop} (context : γ) (tail : Chain γ) (value : Json)
    (before : List (Router γ)) (session : Session)
    (hwithin : ∀ earlier ∈ before, earlier.input.schema.Within Q session.store.target?)
    (hreject : ∀ earlier ∈ before, earlier.input.Rejects value session) :
    ∃ later, session.Follows Q later ∧
      Chain.handle context (before.map Router.toHandler ++ tail) value session =
        Chain.handle context tail value later := by
  induction before generalizing session with
  | nil => exact ⟨session, .refl session, rfl⟩
  | cons router rest ih =>
    obtain ⟨hfirst, hothers⟩ := List.forall_mem_cons.mp hwithin
    obtain ⟨⟨report, hreport⟩, hrejects⟩ := List.forall_mem_cons.mp hreject
    have hvalidate := router.input.validate_follows value session hfirst
    rw [List.map_cons, List.cons_append, Router.toHandler, Chain.handle_router]
    rcases hrun : router.input.validate value session with ⟨outcome, declined⟩
    rw [hrun] at hreport hvalidate
    cases hreport
    have hdeclined : session.Follows Q (Session.record
        (.inputDeclined (router.input.schema.render declined.store) report.head) declined).2 :=
      hvalidate.record rfl
    have hgraph := hdeclined.store.target?
    obtain ⟨later, hlater, hsame⟩ := ih _ (by rw [hgraph]; exact hothers)
      fun earlier he => (hrejects earlier he).of_graph hgraph
    exact ⟨later, hdeclined.trans hlater, hsame⟩

section Run

variable {routers before : List (Router γ)} {value : Json} {session : Session}

/-- After routers that reject the input the session is a twin of what it was, for schemas
that share no cell with these routers that is left to resolve. -/
theorem Chain.handle_passed_twin (context : γ) (tail : Chain γ) (schemas : Set Schema)
    (length : Nat) (hreject : ∀ earlier ∈ before, earlier.input.Rejects value session)
    (hapart : ∀ earlier ∈ before, earlier.input.schema.Apart session.store schemas) :
    ∃ later, session.Twin (CellsOf session.store.target? schemas) session.store.target? later ∧
      Chain.handle context (before.map Router.toHandler ++ tail) value
          (Session.record (.chainStarted length) session).2 =
        Chain.handle context tail value later := by
  let inputs : Set Schema := {schema | ∃ earlier ∈ before, earlier.input.schema = schema}
  have hwithin : ∀ earlier ∈ before,
      earlier.input.schema.Within (CellsOf session.store.target? inputs) session.store.target? :=
    fun earlier he => Schema.within_cellsOf ⟨earlier, he, rfl⟩
  obtain ⟨later, hfollows, hsame⟩ := Chain.handle_passed context tail value before
    (Session.record (.chainStarted length) session).2 hwithin
    fun earlier he => (hreject earlier he).of_graph rfl
  have hstart : session.Follows (CellsOf session.store.target? inputs) later :=
    ((Session.Follows.refl session).record rfl).trans hfollows
  refine ⟨later, hstart.twin fun cell hq hp => ?_, hsame⟩
  obtain ⟨_, ⟨earlier, he, rfl⟩, r, hr, hcell⟩ := hq
  exact hapart earlier he cell ⟨_, Set.mem_singleton _, r, hr, hcell⟩ hp

/-- A router that accepts the input, after others that do not, does what it does by
itself. -/
theorem Chain.run_claimed (context : γ) (router : Router γ) (tail : Chain γ) {accepted : Json}
    (hreject : ∀ earlier ∈ before, earlier.input.Rejects value session)
    (hapart : ∀ earlier ∈ before, earlier.input.schema.Apart session.store router.schemas)
    (haccept : (router.input.validate value session).1 = .ok accepted) :
    (Chain.run (before.map Router.toHandler ++ router.toHandler :: tail) context value session).1 =
        (router.run context value session).1 ∧
      (Chain.run (before.map Router.toHandler ++ router.toHandler :: tail) context value
          session).2.invocations =
        (router.run context value session).2.invocations := by
  obtain ⟨later, htwin, hparent⟩ := Chain.handle_passed_twin context (router.toHandler :: tail)
    router.schemas (before.map Router.toHandler ++ router.toHandler :: tail).length hreject hapart
  have hwithin : ∀ schema ∈ router.schemas, schema.Within
      (CellsOf session.store.target? router.schemas) session.store.target? :=
    fun schema hm => Schema.within_cellsOf hm
  have hinput := hwithin _ (Set.mem_insert _ _)
  have houtput := hwithin _ (Set.mem_insert_of_mem _ (Set.mem_insert _ _))
  have hvalidate := htwin.validate hinput value
  rw [Chain.run_eq, hparent, Router.toHandler, Chain.handle_router, Router.run_eq]
  generalize router.input.validate value session = own at hvalidate haccept ⊢
  generalize router.input.validate value later = mounted at hvalidate ⊢
  cases hvalidate with
  | @intro outcome admitted behind htwin =>
    cases haccept
    have hdispatch := htwin.dispatch router houtput fun s t h => Chain.handle_twins context accepted
      (fun schema hs => hwithin schema (.inr (.inr hs))) h
    dsimp only
    generalize router.dispatch context accepted admitted = own at hdispatch ⊢
    generalize router.dispatch context accepted behind = mounted at hdispatch ⊢
    cases hdispatch with
    | intro htwin => exact ⟨rfl, htwin.invocations⟩

/-- After routers that all reject the input, the rest of a chain does what it does alone. -/
theorem Chain.run_unclaimed (context : γ) (rest : Chain γ)
    (hreject : ∀ earlier ∈ before, earlier.input.Rejects value session)
    (hapart : ∀ earlier ∈ before, earlier.input.schema.Apart session.store (Chain.schemas rest)) :
    (Chain.run (before.map Router.toHandler ++ rest) context value session).1 =
        (Chain.run rest context value session).1 ∧
      (Chain.run (before.map Router.toHandler ++ rest) context value session).2.invocations =
        (Chain.run rest context value session).2.invocations := by
  obtain ⟨later, htwin, hparent⟩ := Chain.handle_passed_twin context rest (Chain.schemas rest)
    (before.map Router.toHandler ++ rest).length hreject hapart
  have hstarted : (Session.record (.chainStarted rest.length) session).2.Twin
      (CellsOf session.store.target? (Chain.schemas rest)) session.store.target? later := by
    refine ⟨htwin.alike, ?_⟩
    rw [htwin.invocations, Session.invocations_record]
    exact (List.append_nil _).symm
  have hhandlers := Chain.handle_twins context value
    (fun schema hm => Schema.within_cellsOf hm) hstarted
  rw [Chain.run_eq, Chain.run_eq, hparent]
  generalize Chain.handle context rest value
    (Session.record (.chainStarted rest.length) session).2 = own at hhandlers ⊢
  generalize Chain.handle context rest value later = mounted at hhandlers ⊢
  cases hhandlers with
  | intro htwin => exact ⟨rfl, htwin.invocations⟩

end Run

/-- By itself a router invokes its own handlers only, each at most once. -/
theorem Router.run_proceeds (context : γ) (router : Router γ) (value : Json) (session : Session) :
    session.Proceeds (Chain.labels router.chain) (router.run context value session).2 := by
  have hvalidate := router.input.validate_proceeds value session
  rw [Router.run_eq]
  rcases h : router.input.validate value session with ⟨report | accepted, later⟩ <;>
    rw [h] at hvalidate
  · exact (hvalidate.trans (.record (.inputRejected _ _) rfl later)).mono (List.nil_sublist _)
  · exact hvalidate.trans (router.dispatch_proceeds context accepted later)

/-- A chain that starts with mounted routers, none of which shares a cell that is left to
resolve with what comes after it, is routed by schema. The first router that accepts the
input does with it what it does by itself: the answer is the same, and the same handlers
are invoked, which are handlers of this router. If no router accepts the input, the rest of
the chain does with it what it does alone. -/
theorem routing_first_match (routers : List (Router γ)) (rest : Chain γ) (context : γ)
    (value : Json) (session : Session)
    (hrouters : routers.Pairwise fun earlier later =>
      earlier.input.schema.Apart session.store later.schemas)
    (hrest : ∀ router ∈ routers, router.input.schema.Apart session.store (Chain.schemas rest)) :
    (∀ before router after accepted, routers = before ++ router :: after →
      (∀ earlier ∈ before, earlier.input.Rejects value session) →
      (router.input.validate value session).1 = .ok accepted →
      (Chain.run (routers.map Router.toHandler ++ rest) context value session).1 =
        (router.run context value session).1 ∧
      (Chain.run (routers.map Router.toHandler ++ rest) context value session).2.invocations =
        (router.run context value session).2.invocations ∧
      session.Proceeds (Chain.labels router.chain) (router.run context value session).2) ∧
    ((∀ router ∈ routers, router.input.Rejects value session) →
      (Chain.run (routers.map Router.toHandler ++ rest) context value session).1 =
        (Chain.run rest context value session).1 ∧
      (Chain.run (routers.map Router.toHandler ++ rest) context value session).2.invocations =
        (Chain.run rest context value session).2.invocations) := by
  refine ⟨?_, fun hreject => Chain.run_unclaimed context rest hreject hrest⟩
  rintro before router after accepted rfl hreject haccept
  obtain ⟨_, _, hacross⟩ := List.pairwise_append.mp hrouters
  obtain ⟨hanswer, hinvocations⟩ := Chain.run_claimed context router
    (after.map Router.toHandler ++ rest) hreject
    (fun earlier he => hacross earlier he router List.mem_cons_self) haccept
  rw [List.map_append, List.map_cons, List.append_assoc, List.cons_append]
  exact ⟨hanswer, hinvocations, router.run_proceeds context value session⟩

/-- A router for texts, with one handler. -/
def textRouter : Router Unit where
  input := .ofSettings (.leaf .string) {}
  output := .ofSettings .any {}
  chain := [.custom "greet" fun request => .answer (.ok request.input)]

/-- A router for points, whose second handler fails. -/
def pointRouter : Router Unit where
  input := .ofSettings (.union [.list (.leaf .number), .reference ⟨0, .thunk⟩]) {}
  output := .ofSettings (.leaf .boolean) {}
  chain := [.custom "measure" fun request => .passOn request.input,
    .custom "draw" fun _ => .answer (.error (.handler "no canvas"))]

/-- A session in which the definition of a point has not been asked for. -/
def pointSession : Session :=
  ⟨(Store.empty.allocate (.pending (.constant
    (.object "Point" [⟨"x", .leaf .number, none, false⟩]) none))).2, #[]⟩

/-- A point passes the router for texts and is claimed by the one for points, whose failure
is that of the whole run; the handler at the end is not invoked. -/
theorem pointRouter_claims :
    (Chain.run ([textRouter, pointRouter].map Router.toHandler ++
          [.custom "fallback" fun _ => .answer (.ok .null)]) ()
        (.object [("x", .number (.int 1 rfl))]) pointSession).1 =
      (pointRouter.run () (.object [("x", .number (.int 1 rfl))]) pointSession).1 ∧
    (Chain.run ([textRouter, pointRouter].map Router.toHandler ++
          [.custom "fallback" fun _ => .answer (.ok .null)]) ()
        (.object [("x", .number (.int 1 rfl))]) pointSession).2.invocations =
      (pointRouter.run () (.object [("x", .number (.int 1 rfl))]) pointSession).2.invocations ∧
    pointSession.Proceeds ["measure", "draw"]
      (pointRouter.run () (.object [("x", .number (.int 1 rfl))]) pointSession).2 := by
  have htext : ∀ store others, Schema.Apart store (.leaf .string) others := by
    rintro store others cell ⟨schema, rfl, r, hr, _⟩ _
    have hleaf : Schema.reference r = .leaf .string := by
      refine hr.mem_of_closed (P := (· = .leaf .string)) rfl ?_ fun r h => by cases h
      rintro whole rfl part hp
      cases hp
    cases hleaf
  have hlabels : Chain.labels pointRouter.chain = ["measure", "draw"] := by
    simp [pointRouter, Chain.labels]
  have htargets : pointSession.store.target? = (Store.empty.setCell 0 (.pending (.constant
    (.object "Point" [⟨"x", .leaf .number, none, false⟩]) none))).target? := rfl
  have haccept : (pointRouter.input.grounds pointSession.store).accept
      pointRouter.input.schema (.object [("x", .number (.int 1 rfl))]) 0 [] =
        some (.object [("x", .number (.int 1 rfl))]) := by
    rw [Rules.grounds_congr _ htargets]
    cbv
  rw [← hlabels]
  refine (routing_first_match [textRouter, pointRouter]
    [.custom "fallback" fun _ => .answer (.ok .null)] () (.object [("x", .number (.int 1 rfl))])
    pointSession ?_ fun router _ => ?_).1 [textRouter] pointRouter []
    (.object [("x", .number (.int 1 rfl))]) rfl ?_
    ((Validator.validate_eq_ok_iff _ _ _ _).mpr haccept)
  · refine .cons ?_ (.cons (fun _ h => by cases h) .nil)
    intro later _
    exact htext _ _
  · rintro cell - ⟨schema, hs, -⟩
    simp [Chain.schemas, Step.schemas, Step.answer, Script.schemas, Script.results] at hs
  · intro earlier he
    rw [List.mem_singleton.mp he]
    refine ⟨Position.root.reject (.typeMismatch "string" "object"), ?_⟩
    rw [Validator.validate_fst]
    exact congrArg Prod.fst (check_leaf _ _ _ _ _)

end Conformance
