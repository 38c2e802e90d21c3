import Conformance.Proofs.Chains
import Conformance.Proofs.Coercion

/-!
# A router is a sealed gate

Whatever the handlers of a router do, they see accepted inputs only, and only checked
answers leave. Without unions in the graph the strict validator of the same schema vouches
for both: it accepts what was accepted under a built-in policy, and gives it again. This
holds behind both doors of a router, and a chain in which it is mounted comes to it once at
most.

Objects have distinct keys on the way into a chain; that they have on the way out is what
`Chain.KeepsKeys` asks of handlers, which are functions on JSON values.
-/

namespace Conformance

/-- Without unions in the graph, what a built-in policy gives is accepted by the strict one
and given again, as data. -/
theorem Schema.UnionFree.accept_strict {schema : Schema} {targets : Targets} {maxDepth : Nat}
    (kind : PolicyKind) (hfree : schema.UnionFree targets)
    (hfields : schema.DistinctFields targets) {value output : Json} (hkeys : value.DistinctKeys)
    (h : Grounds.accept ⟨kind.policy, maxDepth, targets⟩ schema value 0 [] = some output) :
    ∃ result, Grounds.accept ⟨.strict, maxDepth, targets⟩ schema output 0 [] = some result ∧
      result.Same output := by
  have hflat : kind.policy.Flat := kind.policy_flat
  have hdistinct := Grounds.accept_distinctKeys hflat hfields .root hkeys h
  have hbetween := (Json.Same.refl hdistinct).between hdistinct hdistinct
    (Grounds.accept_trims hflat h)
  obtain ⟨result, hresult, hsame⟩ := (repeating_inductive rfl hflat hfields
    (hfree.settled value output)).holds schema value 0 [] output h output .start hkeys hdistinct
      hbetween
  cases kind with
  | strict => exact ⟨result, hresult, hsame⟩
  | nonStrict =>
    have hdresult := Grounds.accept_distinctKeys hflat hfields .root hdistinct hresult
    have hextends := (hsame.symm hdresult hdistinct).extends hdistinct hdresult
    exact ⟨result, (inPlace_inductive hfields hfree).holds schema output 0 [] result hresult .root
      hdistinct hextends, hsame⟩

namespace Validator

/-- A validator under a built-in policy, whose graph has no unions and distinct field
names. -/
structure Canonical (validator : Validator) (targets : Targets) : Prop where
  /-- The policy is one of the built-in ones. -/
  builtIn : ∃ kind : PolicyKind, validator.policy = kind.policy
  /-- No union occurs in the graph. -/
  unionFree : validator.schema.UnionFree targets
  /-- The fields of every struct and object have distinct names. -/
  fields : validator.schema.DistinctFields targets

/-- The strict validator of the same schema and depth limit accepts a value, in any mode and
whatever has been resolved, and gives it again, as data. -/
def VouchesFor (validator : Validator) (targets : Targets) (value : Json) : Prop :=
  ∀ (mode : Mode) (session : Session), session.store.target? = targets →
    ∃ result, ((Validator.ofSettings validator.schema
        ⟨.strict, mode, validator.maxDepth⟩).validate value session).1 = .ok result ∧
      result.sameData value

/-- A validator that takes values with distinct keys to such. -/
structure KeepsKeys (validator : Validator) (targets : Targets) : Prop where
  /-- The policy does so for leaves. -/
  policy : validator.policy.KeepsKeys
  /-- The fields of every struct and object have distinct names. -/
  fields : validator.schema.DistinctFields targets

variable {validator : Validator} {targets : Targets} {session : Session} {value output : Json}

/-- Built-in policies take values with distinct keys to such. -/
theorem Canonical.keepsKeys (h : validator.Canonical targets) : validator.KeepsKeys targets := by
  obtain ⟨kind, hkind⟩ := h.builtIn
  refine ⟨?_, h.fields⟩
  rw [hkind]
  exact kind.policy_flat.keepsKeys

/-- An accepted output has distinct keys if the value has. -/
theorem KeepsKeys.accepted (h : validator.KeepsKeys targets)
    (hgraph : session.store.target? = targets) (hkeys : value.DistinctKeys)
    (haccept : (validator.validate value session).1 = .ok output) : output.DistinctKeys := by
  subst hgraph
  have hgrounds := (validator.validate_eq_ok_iff value output session).mp haccept
  exact Grounds.accept_keepsKeys h.policy h.fields .root hkeys hgrounds

/-- The strict validator vouches for what is accepted. -/
theorem Canonical.vouchesFor (h : validator.Canonical targets)
    (hgraph : session.store.target? = targets) (hkeys : value.DistinctKeys)
    (haccept : (validator.validate value session).1 = .ok output) :
    validator.VouchesFor targets output := by
  subst hgraph
  obtain ⟨kind, hkind⟩ := h.builtIn
  have hgrounds := (validator.validate_eq_ok_iff value output session).mp haccept
  rw [Rules.grounds, hkind] at hgrounds
  obtain ⟨result, hresult, hsame⟩ := h.unionFree.accept_strict kind h.fields hkeys hgrounds
  intro mode later hlater
  refine ⟨result, ?_, hsame⟩
  rw [Validator.validate_eq_ok_iff, Rules.grounds_congr _ hlater]
  exact hresult

end Validator

/-- An answer, if there is one, has distinct keys. -/
def Answer.DistinctKeys (answer : Answer) : Prop :=
  ∀ output, answer = .ok output → output.DistinctKeys

/-- A script has values with distinct keys validated, by validators that keep them so, and
whatever outcomes with distinct keys it goes on with, it comes to a result of a kind. -/
def Script.KeepsKeys {α : Type} (targets : Targets) (P : α → Prop) : Script α → Prop
  | .done result => P result
  | .validate validator value next =>
    validator.KeepsKeys targets ∧ value.DistinctKeys ∧ ∀ outcome : Outcome,
      (∀ output, outcome = .ok output → output.DistinctKeys) →
      Script.KeepsKeys targets P (next outcome)

/-- What a handler does keeps keys distinct: what it answers, what it hands on, and what it
makes of an answer that comes back. -/
def Step.KeepsKeys (targets : Targets) (step : Step) : Prop :=
  Script.KeepsKeys targets (fun move => match move with
    | .answer reply => Answer.DistinctKeys reply
    | .handOn input after => input.DistinctKeys ∧ ∀ answer, Answer.DistinctKeys answer →
      Script.KeepsKeys targets Answer.DistinctKeys (after answer)) step

/-- A request that is passed on keeps its keys, and so does the answer. -/
theorem Step.passOn_keepsKeys {targets : Targets} {input : Json} (h : input.DistinctKeys) :
    (Step.passOn input).KeepsKeys targets :=
  ⟨h, fun _ hanswer => hanswer⟩

variable {γ : Type}

/-- The handlers and gates of a chain keep keys distinct. -/
def Chain.KeepsKeys (targets : Targets) : Chain γ → Prop
  | [] => True
  | .custom _ handle :: rest =>
    (∀ request, request.input.DistinctKeys → (handle request).KeepsKeys targets) ∧
      Chain.KeepsKeys targets rest
  | .router gate output chain :: rest =>
    gate.KeepsKeys targets ∧ output.KeepsKeys targets ∧ Chain.KeepsKeys targets chain ∧
      Chain.KeepsKeys targets rest

section KeepsKeys

variable {targets : Targets}

/-- A checked answer has distinct keys. -/
theorem checkAnswer_keepsKeys {output : Validator} {answer : Answer} {session : Session}
    (houtput : output.KeepsKeys targets) (hgraph : session.store.target? = targets)
    (h : Answer.DistinctKeys answer) :
    Answer.DistinctKeys (checkAnswer output answer session).1 := by
  cases answer with
  | error failure => exact h
  | ok produced =>
    intro result hresult
    rw [checkAnswer_ok] at hresult
    rcases hv : output.validate produced session with ⟨report | accepted, later⟩ <;>
      rw [hv] at hresult <;> cases hresult
    exact houtput.accepted hgraph (h produced rfl) (congrArg Prod.fst hv)

/-- A script that keeps keys distinct comes to a result of its kind. -/
theorem Script.KeepsKeys.run {α : Type} {P : α → Prop} {script : Script α}
    (h : script.KeepsKeys targets P) {session : Session} (hgraph : session.store.target? = targets) :
    P (script.run session).1 := by
  induction script generalizing session with
  | done result => exact h
  | validate validator value next ih =>
    obtain ⟨hvalidator, hvalue, hnext⟩ := h
    have hlater := (validator.validate_proceeds value session).graph.trans hgraph
    exact ih _ (hnext _ fun output houtput => hvalidator.accepted hgraph hvalue houtput) hlater

/-- The move of a link keeps keys distinct: what it answers, what it hands on, and what it makes
of an answer that comes back. -/
def Move.KeepsKeys (targets : Targets) : Move (StateM Session) Json Json → Prop
  | .answer reply => Answer.DistinctKeys reply
  | .handOn input after => input.DistinctKeys ∧ ∀ answer (session : Session),
    Answer.DistinctKeys answer → session.store.target? = targets →
      Answer.DistinctKeys (after answer session).1

/-- What a chain answers has distinct keys, if its links make moves that keep them so. -/
theorem Chain.handle_keepsKeys_of_links (context : γ) {chain : Chain γ}
    (hlinks : ∀ link ∈ chain, ∀ request (session : Session), request.input.DistinctKeys →
      session.store.target? = targets → (link.act request session).1.KeepsKeys targets)
    {input : Json} (hinput : input.DistinctKeys) {session : Session}
    (hgraph : session.store.target? = targets) :
    Answer.DistinctKeys (Chain.handle context chain input session).1 := by
  induction chain generalizing input session with
  | nil =>
    rw [Chain.handle_nil]
    exact fun output h => by cases h
  | cons link rest ih =>
    obtain ⟨hlink, hrest⟩ := List.forall_mem_cons.mp hlinks
    have hkeeps := hlink ⟨input, context, rest.length⟩ session hinput hgraph
    have hproceeds := link.invokes.act ⟨input, context, rest.length⟩ session
    rw [Chain.handle_cons]
    rcases h : link.act ⟨input, context, rest.length⟩ session with ⟨answer | ⟨next, after⟩, later⟩ <;>
      rw [h] at hkeeps hproceeds
    · exact hkeeps
    · have hlater := hproceeds.graph.trans hgraph
      exact hkeeps.2 _ _ (ih hrest hkeeps.1 hlater)
        ((Chain.handle_proceeds context rest next later).graph.trans hlater)

/-- A chain whose handlers and gates keep keys distinct has links that do. -/
theorem Chain.KeepsKeys.link {chain : Chain γ} (h : Chain.KeepsKeys targets chain)
    {link : Handler γ} (hm : link ∈ chain) : Chain.KeepsKeys targets [link] := by
  induction chain with
  | nil => cases hm
  | cons first rest ih =>
    cases first with
    | custom label handle =>
      rw [Chain.KeepsKeys] at h
      rcases List.mem_cons.mp hm with rfl | hm
      · rw [Chain.KeepsKeys, Chain.KeepsKeys]
        exact ⟨h.1, trivial⟩
      · exact ih h.2 hm
    | router gate output chain =>
      rw [Chain.KeepsKeys] at h
      rcases List.mem_cons.mp hm with rfl | hm
      · rw [Chain.KeepsKeys, Chain.KeepsKeys]
        exact ⟨h.1, h.2.1, h.2.2.1, trivial⟩
      · exact ih h.2.2.2 hm

/-- So does the rest of the chain after its first link. -/
theorem Chain.KeepsKeys.tail {link : Handler γ} {rest : Chain γ}
    (h : Chain.KeepsKeys targets (link :: rest)) : Chain.KeepsKeys targets rest := by
  cases link with
  | custom label handle =>
    rw [Chain.KeepsKeys] at h
    exact h.2
  | router gate output chain =>
    rw [Chain.KeepsKeys] at h
    exact h.2.2.2

/-- The moves of a link keep keys distinct. -/
theorem Handler.act_keepsKeys (link : Handler γ) : Chain.KeepsKeys targets [link] →
    ∀ request (session : Session), request.input.DistinctKeys →
      session.store.target? = targets → (link.act request session).1.KeepsKeys targets := by
  induction link using Handler.induction with
  | custom label handle =>
    intro hlink request session hinput hgraph
    rw [Chain.KeepsKeys] at hlink
    let invoked :=
      (Session.record (.handlerInvoked label request.input request.remaining) session).2
    have hinvoked : invoked.store.target? = targets := hgraph
    have hmove := Script.KeepsKeys.run (hlink.1 request hinput) hinvoked
    rw [Handler.act_custom]
    cases h : ((handle request).run invoked).1 with
    | answer reply =>
      rw [h] at hmove
      exact hmove
    | handOn next after =>
      rw [h] at hmove
      exact ⟨hmove.1, fun answer later hanswer hlater => (hmove.2 answer hanswer).run hlater⟩
  | router gate output chain ih =>
    intro hlink request session hinput hgraph
    rw [Chain.KeepsKeys] at hlink
    obtain ⟨hgate, houtput, hchain, -⟩ := hlink
    have hvalidate := gate.validate_proceeds request.input session
    rw [Handler.act_router]
    rcases hv : gate.validate request.input session with ⟨report | accepted, later⟩ <;>
      rw [hv] at hvalidate
    · exact ⟨hinput, fun answer _ hanswer _ => hanswer⟩
    · have haccepted := hgate.accepted hgraph hinput (congrArg Prod.fst hv)
      have hlater := hvalidate.graph.trans hgraph
      have hrun := Chain.run_proceeds request.context chain accepted later
      exact checkAnswer_keepsKeys houtput (hrun.graph.trans hlater)
        (Chain.handle_keepsKeys_of_links request.context
          (fun link hm => ih link hm (hchain.link hm)) haccepted hlater)

/-- What a chain answers has distinct keys. -/
theorem Chain.handle_keepsKeys (context : γ) {chain : Chain γ}
    (hchain : Chain.KeepsKeys targets chain) {input : Json} (hinput : input.DistinctKeys)
    {session : Session} (hgraph : session.store.target? = targets) :
    Answer.DistinctKeys (Chain.handle context chain input session).1 :=
  Chain.handle_keepsKeys_of_links context (fun link hm => link.act_keepsKeys (hchain.link hm))
    hinput hgraph

end KeepsKeys

/-- What the start of a chain does with an input, for every rest of one length: it gives an
answer by itself, or it hands one input to the rest, once, and makes its answer of that of
the rest, without invoking a handler again. -/
inductive Chain.Opens (before : Chain γ) (context : γ) (length : Nat) (input : Json)
    (session : Session) : Prop
  /-- The rest is not come to. -/
  | answers (answer : Answer) (later : Session)
    (h : ∀ rest : Chain γ, rest.length = length →
      Chain.handle context (before ++ rest) input session = (answer, later))
  /-- The rest is come to, with an input and in a session that do not depend on it. -/
  | hands (handed : Json) (reached : Session) (after : Answer → StateM Session Answer)
    (hkeys : handed.DistinctKeys) (hreached : session.Proceeds (Chain.labels before) reached)
    (hquiet : ∀ answer (later : Session), later.Proceeds [] (after answer later).2)
    (h : ∀ rest : Chain γ, rest.length = length →
      Chain.handle context (before ++ rest) input session =
        after (Chain.handle context rest handed reached).1
          (Chain.handle context rest handed reached).2)

/-- The start of a chain answers by itself, or hands one input on: a handler sees nothing of
the rest but its length, and a mounted router nothing at all. -/
theorem Chain.opens (context : γ) {targets : Targets} (length : Nat) {before : Chain γ}
    (hbefore : Chain.KeepsKeys targets before) {input : Json} (hinput : input.DistinctKeys)
    {session : Session} (hgraph : session.store.target? = targets) :
    Chain.Opens before context length input session := by
  induction before generalizing input session with
  | nil =>
    refine .hands input session pure hinput ?_ (fun _ later => ?_) fun rest _ => rfl
    · rw [Chain.labels]
      exact .of_follows (P := fun _ => True) (.refl session)
    · exact .of_follows (P := fun _ => True) (.refl later)
  | cons link others ih =>
    have hlength : ∀ rest : Chain γ, rest.length = length →
        (others ++ rest).length = others.length + length := fun rest hrest => by
      rw [List.length_append, hrest]
    have hkeeps := link.act_keepsKeys (hbefore.link List.mem_cons_self)
      ⟨input, context, others.length + length⟩ session hinput hgraph
    have hproceeds := link.invokes.act ⟨input, context, others.length + length⟩ session
    have hquiet := link.invokes.back ⟨input, context, others.length + length⟩ session
    rcases hact : link.act ⟨input, context, others.length + length⟩ session with
      ⟨answer | ⟨next, after⟩, later⟩ <;> rw [hact] at hkeeps hproceeds hquiet
    · refine .answers answer later fun rest hrest => ?_
      rw [List.cons_append, Chain.handle_cons, hlength rest hrest, hact]
    · have hcons : ∀ rest : Chain γ, rest.length = length →
          Chain.handle context (link :: others ++ rest) input session =
            after (Chain.handle context (others ++ rest) next later).1
              (Chain.handle context (others ++ rest) next later).2 := fun rest hrest => by
        rw [List.cons_append, Chain.handle_cons, hlength rest hrest, hact]
      rcases ih hbefore.tail hkeeps.1 (hproceeds.graph.trans hgraph) with
        ⟨answer, last, h⟩ | ⟨handed, reached, inner, hhanded, hreached, hinner, h⟩
      · refine .answers (after answer last).1 (after answer last).2 fun rest hrest => ?_
        rw [hcons rest hrest, h rest hrest]
        rfl
      · refine .hands handed reached (fun answer => inner answer >>= after) hhanded ?_ ?_
          fun rest hrest => ?_
        · rw [Chain.labels_cons]
          exact hproceeds.trans hreached
        · exact fun answer later => (hinner answer later).trans (hquiet _ _)
        · rw [hcons rest hrest, h rest hrest]
          rfl

/-- What leaves a gate for an answer of the handlers: a failure as it is, a rejection of the
answer, or an answer that the strict validator vouches for. -/
inductive Validator.Releases (output : Validator) (targets : Targets) : Answer → Answer → Prop
  /-- The handlers failed. -/
  | failed (failure : PipelineError) : Releases output targets (.error failure) (.error failure)
  /-- The answer does not conform. -/
  | rejected (produced : Json) (report : Report) :
    Releases output targets (.ok produced) (.error (.outputRejected report))
  /-- The answer conforms. -/
  | checked (produced : Json) {answer : Json} (h : output.VouchesFor targets answer) :
    Releases output targets (.ok produced) (.ok answer)

/-- A router has done its part with an input: it refused the input, without a handler being
invoked, and something else happened; or it accepted the input, ran its chain once on what
it accepted, for which the strict validator vouches, and released what the chain answered. -/
inductive Router.Sealed (router : Router γ) (context : γ) (input : Json) (session : Session)
    (otherwise : Report → Session → Answer × Session) : Answer × Session → Prop
  /-- The input is refused. -/
  | refused {report : Report} {later : Session}
    (hinput : (router.input.validate input session).1 = .error report)
    (hquiet : session.Proceeds [] later) :
    Sealed router context input session otherwise (otherwise report later)
  /-- The input is accepted. -/
  | admitted {accepted : Json} {answer : Answer} {entered later : Session}
    (hinput : (router.input.validate input session).1 = .ok accepted)
    (haccepted : router.input.VouchesFor session.store.target? accepted)
    (hquiet : session.Proceeds [] entered)
    (hanswer : router.output.Releases session.store.target?
      (router.chain.run context accepted entered).1 answer)
    (hlater : (router.chain.run context accepted entered).2.Proceeds [] later) :
    Sealed router context input session otherwise (answer, later)

section Sealed

variable {targets : Targets} {session : Session}

/-- The check of an answer releases it. -/
theorem Validator.Canonical.releases {output : Validator} (h : output.Canonical targets)
    (hgraph : session.store.target? = targets) {answer : Answer}
    (hkeys : Answer.DistinctKeys answer) :
    output.Releases targets answer (checkAnswer output answer session).1 := by
  cases answer with
  | error failure => exact .failed failure
  | ok produced =>
    rw [checkAnswer_ok]
    rcases hv : output.validate produced session with ⟨report | accepted, later⟩
    · exact .rejected produced report
    · exact .checked produced (h.vouchesFor hgraph (hkeys produced rfl) (congrArg Prod.fst hv))

/-- Behind both doors a router does its part with an input in the same way. -/
theorem Router.sealed_of_validate {router : Router γ} {context : γ} {input : Json}
    (hinput : router.input.Canonical session.store.target?)
    (houtput : router.output.Canonical session.store.target?)
    (hchain : Chain.KeepsKeys session.store.target? router.chain) (hkeys : input.DistinctKeys)
    {otherwise : Report → Session → Answer × Session} {run : Answer × Session}
    (hrefused : ∀ report later, router.input.validate input session = (.error report, later) →
      ∃ last, later.Proceeds [] last ∧ run = otherwise report last)
    (hadmitted : ∀ accepted later, router.input.validate input session = (.ok accepted, later) →
      run = router.dispatch context accepted later) :
    router.Sealed context input session otherwise run := by
  have hvalidate := router.input.validate_proceeds input session
  rcases hv : router.input.validate input session with ⟨report | accepted, later⟩ <;>
    rw [hv] at hvalidate
  · obtain ⟨last, hlast, rfl⟩ := hrefused report later hv
    exact .refused (congrArg Prod.fst hv) (hvalidate.trans hlast)
  · have haccepted := hinput.keepsKeys.accepted rfl hkeys (congrArg Prod.fst hv)
    have hrun := router.chain.run_proceeds context accepted later
    have hanswer : Answer.DistinctKeys (router.chain.run context accepted later).1 :=
      Chain.handle_keepsKeys context hchain haccepted hvalidate.graph
    rw [hadmitted accepted later hv, Router.dispatch_eq]
    exact .admitted (congrArg Prod.fst hv) (hinput.vouchesFor rfl hkeys (congrArg Prod.fst hv))
      hvalidate (houtput.releases (hrun.graph.trans hvalidate.graph) hanswer)
      (checkAnswer_proceeds router.output _ _)

/-- By itself a router does its part with every input, and rejects what it refuses. -/
theorem Router.run_sealed (router : Router γ) (context : γ) (input : Json)
    (hinput : router.input.Canonical session.store.target?)
    (houtput : router.output.Canonical session.store.target?)
    (hchain : Chain.KeepsKeys session.store.target? router.chain) (hkeys : input.DistinctKeys) :
    router.Sealed context input session
      (fun report later => (.error (.inputRejected report), later))
      (router.run context input session) := by
  refine Router.sealed_of_validate hinput houtput hchain hkeys (fun report later hv => ?_)
    fun accepted later hv => ?_
  · have hrun : router.run context input session = (.error (.inputRejected report),
        (Session.record (.inputRejected (router.input.schema.render later.store) report.head)
          later).2) := by
      rw [Router.run_eq, hv]
    exact ⟨_, .record _ rfl later, hrun⟩
  · rw [Router.run_eq, hv]

/-- As a link a router does its part with every input that it is given, and passes on what it
refuses. -/
theorem Router.toHandler_sealed (router : Router γ) (context : γ) (rest : Chain γ) (input : Json)
    (hinput : router.input.Canonical session.store.target?)
    (houtput : router.output.Canonical session.store.target?)
    (hchain : Chain.KeepsKeys session.store.target? router.chain) (hkeys : input.DistinctKeys) :
    router.Sealed context input session (fun _ later => Chain.handle context rest input later)
      (Chain.handle context (router.toHandler :: rest) input session) := by
  refine Router.sealed_of_validate hinput houtput hchain hkeys (fun report later hv => ?_)
    fun accepted later hv => ?_
  · have hnext : Chain.handle context (router.toHandler :: rest) input session =
        Chain.handle context rest input (Session.record
          (.inputDeclined (router.input.schema.render later.store) report.head) later).2 := by
      rw [Router.toHandler, Chain.handle_router, hv]
    exact ⟨_, .record _ rfl later, hnext⟩
  · rw [Router.toHandler, Chain.handle_router, hv]

end Sealed

/-- A router without unions in its graphs is a sealed gate. By itself it does its part with
the input. As a link of any chain it is either not come to, so that the run is the same with
any other link in its place, or it is come to once, and does its part with what it is handed
there. -/
theorem router_sealed (router : Router γ) (context : γ) (session : Session)
    (hinput : router.input.Canonical session.store.target?)
    (houtput : router.output.Canonical session.store.target?)
    (hchain : Chain.KeepsKeys session.store.target? router.chain) (input : Json)
    (hkeys : input.DistinctKeys) :
    router.Sealed context input session
      (fun report later => (.error (.inputRejected report), later))
      (router.run context input session) ∧
    ∀ before after : Chain γ, Chain.KeepsKeys session.store.target? before →
      (∃ answer later, ∀ link : Handler γ,
        Chain.run (before ++ link :: after) context input session = (answer, later)) ∨
      ∃ (handed : Json) (reached : Session) (reply : Answer → StateM Session Answer),
        session.Proceeds (Chain.labels before) reached ∧
        (∀ answer (later : Session), later.Proceeds [] (reply answer later).2) ∧
        (∀ link : Handler γ, Chain.run (before ++ link :: after) context input session =
          reply (Chain.handle context (link :: after) handed reached).1
            (Chain.handle context (link :: after) handed reached).2) ∧
        router.Sealed context handed reached
          (fun _ later => Chain.handle context after handed later)
          (Chain.handle context (router.toHandler :: after) handed reached) := by
  refine ⟨router.run_sealed context input hinput houtput hchain hkeys, ?_⟩
  intro before after hbefore
  have hlength : ∀ link : Handler γ, (before ++ link :: after).length =
      before.length + (after.length + 1) := fun link => by
    rw [List.length_append, List.length_cons]
  let started := (Session.record (.chainStarted (before.length + (after.length + 1))) session).2
  have hstarted : session.Proceeds [] started := .record _ rfl session
  rcases Chain.opens context (after.length + 1) hbefore hkeys hstarted.graph with
    ⟨answer, later, h⟩ | ⟨handed, reached, reply, hhanded, hreached, hquiet, h⟩
  · refine .inl ⟨answer, later, fun link => ?_⟩
    rw [Chain.run_eq, hlength]
    exact h (link :: after) rfl
  · have hproceeds := hstarted.trans hreached
    refine .inr ⟨handed, reached, reply, hproceeds, hquiet, fun link => ?_, ?_⟩
    · rw [Chain.run_eq, hlength]
      exact h (link :: after) rfl
    · rw [← hproceeds.graph] at hinput houtput hchain
      exact router.toHandler_sealed context after handed hinput houtput hchain hhanded

/-- A node without its successors. -/
def loneNode : Schema := .struct [⟨"v", .leaf .number, none, false⟩]

/-- What occurs in the graph of a node without its successors. -/
theorem loneNode_reaches {targets : Targets} {schema : Schema}
    (h : Schema.Reaches targets loneNode schema) : schema ∈ [loneNode, .leaf .number] := by
  refine h.mem_of_closed (P := (· ∈ _)) (by simp) ?_ ?_
  · intro whole hw part hp
    simp only [List.mem_cons, List.not_mem_nil, or_false] at hw
    rcases hw with rfl | rfl
    · rw [List.mem_singleton.mp hp]
      simp
    · cases hp
  · intro r hr
    simp [loneNode] at hr

/-- A router that takes nodes with a flag, as texts if need be, and answers with the first of
them. -/
def flaggedRouter : Router Unit where
  input := .ofSettings flaggedChain ⟨.nonStrict, .collectAll, 2⟩
  output := .ofSettings loneNode {}
  chain := [.custom "count" fun request => .passOn request.input,
    .custom "first" fun request => .answer (.ok request.input)]

/-- A node with a flag, all of whose data are texts. -/
def flaggedTexts : Json :=
  .object [("v", .string "1"), ("next", .object [("v", .string " 2 ")]), ("flag", .string "true")]

/-- A link that hands its input on as it is. -/
def logLink : Handler Unit := .custom "log" fun request => .passOn request.input

/-- The router does its part with a node by itself, and behind a link, which does hand the
node on. -/
theorem flaggedRouter_sealed :
    flaggedRouter.Sealed () flaggedTexts chainSession
      (fun report later => (.error (.inputRejected report), later))
      (flaggedRouter.run () flaggedTexts chainSession) ∧
    ∃ (handed : Json) (reached : Session) (reply : Answer → StateM Session Answer),
      chainSession.Proceeds (Chain.labels [logLink]) reached ∧
      (∀ answer (later : Session), later.Proceeds [] (reply answer later).2) ∧
      (∀ link : Handler Unit, Chain.run [logLink, link] () flaggedTexts chainSession =
        reply (Chain.handle () [link] handed reached).1
          (Chain.handle () [link] handed reached).2) ∧
      flaggedRouter.Sealed () handed reached (fun _ later => Chain.handle () [] handed later)
        (Chain.handle () [flaggedRouter.toHandler] handed reached) := by
  have hinput : flaggedRouter.input.Canonical chainSession.store.target? := by
    refine ⟨⟨.nonStrict, rfl⟩, fun members hr => ?_, fun schema fields hr hf => ?_⟩
    · have hmem := flaggedChain_reaches hr
      simp [flaggedChain, chainNode] at hmem
    · have hmem := flaggedChain_reaches hr
      simp only [List.mem_cons, List.not_mem_nil, or_false] at hmem
      rcases hmem with rfl | rfl | rfl | rfl | rfl | rfl | rfl | rfl <;> cases hf <;> decide
  have houtput : flaggedRouter.output.Canonical chainSession.store.target? := by
    refine ⟨⟨.strict, rfl⟩, fun members hr => ?_, fun schema fields hr hf => ?_⟩
    · have hmem := loneNode_reaches hr
      simp [loneNode] at hmem
    · have hmem := loneNode_reaches hr
      simp only [List.mem_cons, List.not_mem_nil, or_false] at hmem
      rcases hmem with rfl | rfl <;> cases hf
      decide
  have hchain : Chain.KeepsKeys chainSession.store.target? flaggedRouter.chain := by
    simp only [flaggedRouter, Chain.KeepsKeys, and_true]
    refine ⟨fun request h => Step.passOn_keepsKeys h, fun request h => ?_⟩
    rintro output ⟨⟩
    exact h
  have hlog : Chain.KeepsKeys chainSession.store.target? [logLink] := by
    simp only [logLink, Chain.KeepsKeys, and_true]
    exact fun request h => Step.passOn_keepsKeys h
  have hkeys : flaggedTexts.DistinctKeys := by
    refine .object (by decide) fun entry he => ?_
    simp only [List.mem_cons, List.not_mem_nil, or_false] at he
    rcases he with rfl | rfl | rfl
    · exact .string _
    · refine .object (by decide) fun entry he => ?_
      rw [List.mem_singleton.mp he]
      exact .string _
    · exact .string _
  obtain ⟨halone, hmounted⟩ := router_sealed flaggedRouter () chainSession hinput houtput hchain
    flaggedTexts hkeys
  refine ⟨halone, (hmounted [logLink] [] hlog).resolve_left ?_⟩
  -- Two links that answer differently tell that the link is come to.
  rintro ⟨answer, later, h⟩
  have hnull := congrArg Prod.fst (h (.custom "null" fun _ => .answer (.ok .null)))
  have hopen := congrArg Prod.fst (h (.custom "open" fun _ => .answer (.error .unhandled)))
  have hsame := hnull.trans hopen.symm
  simp only [logLink, List.cons_append, List.nil_append, Chain.run_eq, Chain.handle_cons,
    Handler.act_custom, Step.passOn, Step.forward, Step.answer, Script.run] at hsame
  cases hsame

end Conformance
