import Conformance.Proofs.Courses
import Conformance.Proofs.Following

/-!
# The steps of a chain

What a chain does with an input is one equation for each kind of link, in terms of the
session before and after. A router is the same behind both of its doors: what it does with
an accepted input is `Router.dispatch`, whether it runs by itself or as a link. A run only
follows cells, and it invokes handlers in the order of the chain, each at most once.

A link may be a router, whose chain has links again, so what holds of links is shown by
`Handler.induction`, and what holds of a chain by induction on its row of links.
-/

namespace Conformance

variable {γ : Type}

/-- A chain does what its links do. -/
theorem Chain.acts_eq_map (chain : Chain γ) : Chain.acts chain = chain.map Handler.act := by
  induction chain with
  | nil => rw [Chain.acts, List.map_nil]
  | cons link rest ih => rw [Chain.acts, List.map_cons, ih]

section Equations

variable (context : γ) (session : Session)

/-- What the handlers produce has to pass the check of the output. -/
theorem checkAnswer_ok (output : Validator) (produced : Json) :
    checkAnswer output (.ok produced) session =
      match output.validate produced session with
      | (.ok accepted, later) => (.ok accepted, later)
      | (.error report, later) =>
        (.error (.outputRejected report), (Session.record
          (.outputRejected (output.schema.render later.store) report.head) later).2) := by
  unfold checkAnswer
  rcases h : output.validate produced session with ⟨_ | _, later⟩ <;>
    simp only [bind, StateT.bind, h] <;> rfl

/-- A chain without handlers leaves the input unhandled. -/
theorem Chain.handle_nil (input : Json) :
    Chain.handle context [] input session = (.error .unhandled, session) := by
  rw [Chain.handle, Chain.acts, Middleware.handle_nil]

/-- A handler is invoked once, and does what its script says. -/
theorem Handler.act_custom (label : String) (handle : Request γ → Step) (request : Request γ) :
    (Handler.custom label handle).act request session =
      (((handle request).run (Session.record
          (.handlerInvoked label request.input request.remaining) session).2).1.perform,
        ((handle request).run (Session.record
          (.handlerInvoked label request.input request.remaining) session).2).2) := by
  rw [Handler.act]
  rfl

/-- A run starts the chain and hands the input to its first handler. -/
theorem Chain.run_eq (chain : Chain γ) (input : Json) :
    chain.run context input session =
      Chain.handle context chain input (Session.record (.chainStarted chain.length) session).2 :=
  rfl

/-- What the handlers of a router give is checked before it leaves. -/
theorem Router.dispatch_eq (router : Router γ) (accepted : Json) :
    router.dispatch context accepted session =
      checkAnswer router.output (router.chain.run context accepted session).1
        (router.chain.run context accepted session).2 := rfl

/-- A router answers as it does by itself, or passes the input on. -/
theorem Handler.act_router (gate output : Validator) (chain : Chain γ) (request : Request γ) :
    (Handler.router gate output chain).act request session =
      match gate.validate request.input session with
      | (.ok accepted, later) =>
        (.answer (Router.dispatch ⟨gate, output, chain⟩ request.context accepted later).1,
          (Router.dispatch ⟨gate, output, chain⟩ request.context accepted later).2)
      | (.error report, later) => (.handOn request.input pure, (Session.record
          (.inputDeclined (gate.schema.render later.store) report.head) later).2) := by
  rw [Handler.act]
  rcases h : gate.validate request.input session with ⟨_ | _, later⟩ <;>
    simp only [bind, StateT.bind, h] <;> rfl

/-- A chain goes on after a link with what the link hands on, and the link makes its answer
of that of the rest. -/
theorem Chain.handle_cons (link : Handler γ) (rest : Chain γ) (input : Json) :
    Chain.handle context (link :: rest) input session =
      match link.act ⟨input, context, rest.length⟩ session with
      | (.answer answer, later) => (answer, later)
      | (.handOn next after, later) => after (Chain.handle context rest next later).1
          (Chain.handle context rest next later).2 := by
  rw [Chain.handle, Chain.acts, Middleware.handle_cons, Chain.acts_eq_map, List.length_map]
  rcases link.act ⟨input, context, rest.length⟩ session with ⟨_ | _, later⟩ <;>
    simp only [Chain.handle, Chain.acts_eq_map]

/-- A mounted router takes the inputs that it accepts and passes the others on. -/
theorem Chain.handle_router (gate output : Validator) (chain rest : Chain γ) (input : Json) :
    Chain.handle context (.router gate output chain :: rest) input session =
      match gate.validate input session with
      | (.ok accepted, later) => Router.dispatch ⟨gate, output, chain⟩ context accepted later
      | (.error report, later) => Chain.handle context rest input (Session.record
          (.inputDeclined (gate.schema.render later.store) report.head) later).2 := by
  rw [Chain.handle_cons, Handler.act_router]
  rcases gate.validate input session with ⟨_ | _, later⟩ <;> rfl

/-- A router by itself takes the inputs that it accepts and rejects the others. -/
theorem Router.run_eq (router : Router γ) (input : Json) :
    router.run context input session =
      match router.input.validate input session with
      | (.ok accepted, later) => router.dispatch context accepted later
      | (.error report, later) => (.error (.inputRejected report), (Session.record
          (.inputRejected (router.input.schema.render later.store) report.head) later).2) := by
  unfold Router.run
  rcases h : router.input.validate input session with ⟨report | accepted, later⟩
  · simp only [bind, StateT.bind, h]
    rfl
  · simp only [bind, StateT.bind, h]

end Equations

/-- What holds of every handler, and of a router if it does of the links behind its gate,
holds of every link. -/
theorem Handler.induction {motive : Handler γ → Prop}
    (custom : ∀ label handle, motive (.custom label handle))
    (router : ∀ gate output chain, (∀ link ∈ chain, motive link) →
      motive (.router gate output chain)) (link : Handler γ) : motive link := by
  match link with
  | .custom label handle => exact custom label handle
  | .router gate output chain =>
    exact router gate output chain fun link hm => Handler.induction custom router link
termination_by sizeOf link
decreasing_by
  have hlt : sizeOf link < sizeOf chain := List.sizeOf_lt_of_mem hm
  simp only [Handler.router.sizeOf_spec]
  omega

/-- The labels of the handlers in a chain, those behind mounted routers included. -/
def Chain.labels : Chain γ → List String
  | [] => []
  | .custom label _ :: rest => label :: Chain.labels rest
  | .router _ _ chain :: rest => Chain.labels chain ++ Chain.labels rest

/-- The labels of a chain are those of its links. -/
theorem Chain.labels_cons (link : Handler γ) (rest : Chain γ) :
    Chain.labels (link :: rest) = Chain.labels [link] ++ Chain.labels rest := by
  cases link with
  | custom label handle => rw [Chain.labels, Chain.labels, Chain.labels, List.singleton_append]
  | router gate output chain => rw [Chain.labels, Chain.labels, Chain.labels, List.append_nil]

/-- A session goes on while handlers run: the graph stays as it is, and the handlers that
are invoked have these labels in this order, each at most once. -/
structure Session.Proceeds (labels : List String) (start later : Session) : Prop where
  /-- Every cell leads where it did. -/
  graph : later.store.target? = start.store.target?
  /-- The handlers that were invoked. -/
  invoked : ∃ invoked : List Invocation, later.invocations = start.invocations ++ invoked ∧
    (invoked.map Invocation.label).Sublist labels

namespace Session.Proceeds

variable {labels more : List String} {start session later : Session}

/-- Where cells are followed no handler is invoked. -/
theorem of_follows {P : CellId → Prop} (h : start.Follows P later) : start.Proceeds [] later :=
  ⟨h.store.target?, [], by rw [h.invocations, List.append_nil], List.Sublist.refl _⟩

/-- An event that tells of no handler is recorded. -/
theorem record (event : Event) (he : event.invocation? = none) (session : Session) :
    session.Proceeds [] (Session.record event session).2 :=
  .of_follows (P := fun _ => True) ((Session.Follows.refl session).record he)

/-- A handler is invoked. -/
theorem invoke (label : String) (input : Json) (remaining : Nat) (session : Session) :
    session.Proceeds [label] (Session.record (.handlerInvoked label input remaining) session).2 :=
  ⟨rfl, [⟨label, input, remaining⟩], Session.invocations_record _ session, List.Sublist.refl _⟩

/-- One thing after the other. -/
theorem trans (h : start.Proceeds labels session) (h' : session.Proceeds more later) :
    start.Proceeds (labels ++ more) later := by
  obtain ⟨invoked, hinvoked, hlabels⟩ := h.invoked
  obtain ⟨others, hothers, hmore⟩ := h'.invoked
  refine ⟨h'.graph.trans h.graph, invoked ++ others, ?_, ?_⟩
  · rw [hothers, hinvoked, List.append_assoc]
  · rw [List.map_append]
    exact hlabels.append hmore

/-- More handlers might have been invoked. -/
theorem mono (h : start.Proceeds labels later) (hsub : labels.Sublist more) :
    start.Proceeds more later :=
  ⟨h.graph, let ⟨invoked, hinvoked, hlabels⟩ := h.invoked; ⟨invoked, hinvoked, hlabels.trans hsub⟩⟩

/-- What invokes no handler leaves the row of invocations as it was. -/
theorem invocations_eq (h : start.Proceeds [] later) : later.invocations = start.invocations := by
  obtain ⟨invoked, hinvoked, hlabels⟩ := h.invoked
  have hnone : invoked = [] := List.map_eq_nil_iff.mp (List.sublist_nil.mp hlabels)
  rw [hinvoked, hnone, List.append_nil]

end Session.Proceeds

/-- A validation invokes no handler. -/
theorem Validator.validate_proceeds (validator : Validator) (value : Json) (session : Session) :
    session.Proceeds [] (validator.validate value session).2 :=
  .of_follows (P := fun _ => True)
    (validator.validate_follows value session fun _ _ => trivial)

/-- The check of an answer invokes no handler. -/
theorem checkAnswer_proceeds (output : Validator) (answer : Answer) (session : Session) :
    session.Proceeds [] (checkAnswer output answer session).2 := by
  cases answer with
  | error failure => exact .of_follows (P := fun _ => True) (.refl session)
  | ok produced =>
    have hvalidate := output.validate_proceeds produced session
    rw [checkAnswer_ok]
    rcases h : output.validate produced session with ⟨report | accepted, later⟩ <;>
      rw [h] at hvalidate
    · exact hvalidate.trans (.record (.outputRejected _ _) rfl later)
    · exact hvalidate

/-- The script of a handler invokes no handler. -/
theorem Script.run_proceeds {α : Type} (script : Script α) (session : Session) :
    session.Proceeds [] (script.run session).2 := by
  induction script generalizing session with
  | done result => exact .of_follows (P := fun _ => True) (.refl session)
  | validate validator value next ih =>
    exact (validator.validate_proceeds value session).trans (ih _ _)

/-- A link invokes handlers of some labels when its turn comes, each at most once, and none
when an answer comes back. -/
structure Handler.Invokes (labels : List String) (link : Handler γ) : Prop where
  /-- In its turn it invokes these. -/
  act : ∀ (request : Request γ) (session : Session),
    session.Proceeds labels (link.act request session).2
  /-- For an answer that comes back it invokes none. -/
  back : ∀ (request : Request γ) (session : Session) (answer : Answer) (later : Session),
    later.Proceeds [] ((link.act request session).1.back answer later).2

/-- A chain invokes its handlers in their order if its links do. -/
theorem Chain.handle_proceeds_of_links (context : γ) {chain : Chain γ}
    (hlinks : ∀ link ∈ chain, link.Invokes (Chain.labels [link])) (input : Json)
    (session : Session) :
    session.Proceeds (Chain.labels chain) (Chain.handle context chain input session).2 := by
  induction chain generalizing input session with
  | nil =>
    rw [Chain.handle_nil, Chain.labels]
    exact .of_follows (P := fun _ => True) (.refl session)
  | cons link rest ih =>
    obtain ⟨hlink, hrest⟩ := List.forall_mem_cons.mp hlinks
    have hact := hlink.act ⟨input, context, rest.length⟩ session
    have hback := hlink.back ⟨input, context, rest.length⟩ session
    rw [Chain.handle_cons, Chain.labels_cons]
    rcases h : link.act ⟨input, context, rest.length⟩ session with ⟨answer | ⟨next, after⟩, later⟩ <;>
      rw [h] at hact hback
    · exact hact.mono (List.sublist_append_left _ _)
    · have hafter := hback (Chain.handle context rest next later).1
        (Chain.handle context rest next later).2
      have hboth := (hact.trans (ih hrest next later)).trans hafter
      rwa [List.append_nil] at hboth

/-- A link invokes its own handlers only. -/
theorem Handler.invokes (link : Handler γ) : link.Invokes (Chain.labels [link]) := by
  induction link using Handler.induction with
  | custom label handle =>
    refine ⟨fun request session => ?_, fun request session answer later => ?_⟩
    · have hinvoke := Session.Proceeds.invoke label request.input request.remaining session
      rw [Handler.act_custom, Chain.labels, Chain.labels]
      exact hinvoke.trans ((handle request).run_proceeds _)
    · rw [Handler.act_custom]
      cases ((handle request).run (Session.record
          (.handlerInvoked label request.input request.remaining) session).2).1 with
      | answer reply => exact .of_follows (P := fun _ => True) (.refl later)
      | handOn next after => exact (after answer).run_proceeds later
  | router gate output chain ih =>
    refine ⟨fun request session => ?_, fun request session answer later => ?_⟩
    · have hvalidate := gate.validate_proceeds request.input session
      rw [Handler.act_router, Chain.labels, Chain.labels, List.append_nil]
      rcases h : gate.validate request.input session with ⟨report | accepted, later⟩ <;>
        rw [h] at hvalidate
      · exact (hvalidate.trans (.record (.inputDeclined _ _) rfl later)).mono (List.nil_sublist _)
      · have hstarted := hvalidate.trans (.record (.chainStarted chain.length) rfl later)
        have hchain := hstarted.trans
          (Chain.handle_proceeds_of_links request.context ih accepted _)
        have hanswer := checkAnswer_proceeds output
          (Chain.run chain request.context accepted later).1
          (Chain.run chain request.context accepted later).2
        have hboth := hchain.trans hanswer
        rwa [List.append_nil] at hboth
    · rw [Handler.act_router]
      rcases gate.validate request.input session with ⟨report | accepted, behind⟩ <;>
        exact .of_follows (P := fun _ => True) (.refl later)

/-- A chain invokes its handlers in their order, each at most once. -/
theorem Chain.handle_proceeds (context : γ) (chain : Chain γ) (input : Json) (session : Session) :
    session.Proceeds (Chain.labels chain) (Chain.handle context chain input session).2 :=
  Chain.handle_proceeds_of_links context (fun link _ => link.invokes) input session

/-- A run invokes the handlers of its chain in their order, each at most once. -/
theorem Chain.run_proceeds (context : γ) (chain : Chain γ) (input : Json) (session : Session) :
    session.Proceeds (Chain.labels chain) (chain.run context input session).2 :=
  (Session.Proceeds.record (.chainStarted chain.length) rfl session).trans
    (Chain.handle_proceeds context chain input _)

/-- Behind its gate a router invokes its own handlers, each at most once. -/
theorem Router.dispatch_proceeds (context : γ) (router : Router γ) (accepted : Json)
    (session : Session) :
    session.Proceeds (Chain.labels router.chain) (router.dispatch context accepted session).2 := by
  have hrun := router.chain.run_proceeds context accepted session
  have hanswer := checkAnswer_proceeds router.output (router.chain.run context accepted session).1
    (router.chain.run context accepted session).2
  rw [Router.dispatch_eq, ← List.append_nil (Chain.labels router.chain)]
  exact hrun.trans hanswer

end Conformance
