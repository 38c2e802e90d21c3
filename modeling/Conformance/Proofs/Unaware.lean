import Conformance.Proofs.Chains

/-!
# Nothing reads the journal

A session keeps a journal for those who look at it afterwards. Checks, routers and chains
add to it and do not look at it: what they give, what they do to the store and which events
they add depends on the store alone.
-/

namespace Conformance

/-- The session with the same store in which nothing has happened yet. -/
def Session.fresh (session : Session) : Session := ⟨session.store, #[]⟩

/-- An act does not look at the journal: it does what it does where nothing has happened
yet, and its events follow those that are there. -/
def Unaware {α : Type} (act : StateM Session α) : Prop :=
  ∀ session : Session, act session = ((act session.fresh).1,
    ⟨(act session.fresh).2.store, session.journal ++ (act session.fresh).2.journal⟩)

namespace Unaware

variable {α β : Type} {act : StateM Session α}

/-- Nothing is done. -/
theorem pure (result : α) : Unaware (pure result : StateM Session α) := by
  intro session
  have hjournal : session.journal ++ session.fresh.journal = session.journal := Array.append_empty
  exact Prod.ext rfl (congrArg (Session.mk session.store) hjournal.symm)

/-- One act after the other, going by its result; the events of the second follow those of
the first. -/
theorem bindResult {next : α → StateM Session β} (h : Unaware act)
    (hnext : ∀ session, Unaware (next (act session).1)) : Unaware (act >>= next) := by
  intro session
  have hbind : ∀ start, (act >>= next) start = next (act start).1 (act start).2 := fun _ => rfl
  have hstore : ∀ journal, Session.fresh ⟨(act session.fresh).2.store, journal⟩ =
      (act session.fresh).2.fresh := fun _ => rfl
  rw [hbind, hbind, h session, hnext session.fresh, hnext session.fresh (act session.fresh).2,
    hstore, Array.append_assoc]

/-- One act after the other. -/
theorem bind {next : α → StateM Session β} (h : Unaware act)
    (hnext : ∀ result, Unaware (next result)) : Unaware (act >>= next) :=
  h.bindResult fun _ => hnext _

/-- An event is added. -/
theorem record (event : Event) : Unaware (Session.record event) := by
  intro session
  have hjournal : session.journal.push event = session.journal ++ #[event] :=
    Array.append_singleton.symm
  exact Prod.ext rfl (congrArg (Session.mk session.store) hjournal)

/-- Something is done to the store. -/
theorem onStore (step : StateM Store α) : Unaware (Session.onStore step) := by
  intro session
  have hjournal : session.journal ++ session.fresh.journal = session.journal := Array.append_empty
  exact Prod.ext rfl (congrArg (Session.mk (step session.store).2) hjournal.symm)

/-- The session is looked at, but of its parts the store only. -/
theorem readStore {next : Session → StateM Session β}
    (hstore : ∀ session : Session, next session = next session.fresh)
    (hnext : ∀ session, Unaware (next session)) : Unaware (get >>= next) := by
  intro session
  have hget : ∀ start, (get >>= next) start = next start start := fun _ => rfl
  rw [hget, hget, hstore, hnext]

end Unaware

/-- In every function of a check, the journal is not looked at. -/
def unaware : Walk where
  ofSchema rules schema value here := Unaware (check rules schema value here)
  ofChild rules child here := Unaware (checkChild rules child here)
  ofChildren rules children here := Unaware (checkChildren rules children here)
  ofMembers rules index members value here :=
    Unaware (checkMembers rules index members value here)
  ofEvery rules index members merged value here :=
    Unaware (checkEvery rules index members merged value here)

/-- No step of a check looks at the journal. -/
theorem unaware_inductive : unaware.Inductive := by
  constructor <;> dsimp only [unaware]
  case leaf =>
    intro rules leaf value here
    rw [check, checkLeaf]
    cases rules.policy.check leaf value with
    | ok output => exact (Unaware.record _).bind fun _ => .pure _
    | error cause => exact (Unaware.record _).bind fun _ => .pure _
  case null =>
    intro rules inner value here hnull
    rw [check, if_pos hnull]
    exact .pure _
  case nullable =>
    intro rules inner value here hnull ih
    rw [check, if_neg hnull]
    exact ih
  case union =>
    intro rules members value here ih
    rw [check]
    refine Unaware.bind ih fun found => ?_
    cases found with
    | ok output => exact .pure _
    | error attempts => exact .readStore (fun _ => rfl) fun _ => .pure _
  case intersection =>
    intro rules members value here ih
    rw [check]
    exact ih
  case followed =>
    intro rules r value here he ih
    rw [check, if_pos he]
    refine (Unaware.onStore _).bind fun found => ?_
    cases found with
    | some target => exact ih target
    | none => exact .pure _
  case blocked =>
    intro rules r value here he
    rw [check, if_neg he]
    exact .pure _
  case plain =>
    intro rules schema value here hs hview
    rw [check_structural rules value here hs, hview]
    exact .pure _
  case mismatch =>
    intro rules schema value here expected hview
    have hs : schema.isStructural := View.isStructural_of_ne_plain (by rw [hview]; simp)
    rw [check_structural rules value here hs, hview]
    exact .pure _
  case deep =>
    intro rules schema value here children assemble hc hd
    obtain ⟨_, hview⟩ := View.of_container hc
    have hs : schema.isStructural := View.isStructural_of_ne_plain (by rw [hview]; simp)
    rw [check_structural rules value here hs, hview]
    simp only [hd, if_true]
    exact .pure _
  case container =>
    intro rules schema value here children assemble hc hd ih
    obtain ⟨_, hview⟩ := View.of_container hc
    have hs : schema.isStructural := View.isStructural_of_ne_plain (by rw [hview]; simp)
    rw [check_structural rules value here hs, hview]
    simp only [hd, if_false]
    refine Unaware.bind ih fun found => ?_
    cases found <;> exact .pure _
  case present =>
    intro rules segment schema value here ih
    rw [checkChild]
    refine Unaware.bind ih fun found => ?_
    cases found <;> exact .pure _
  case absent =>
    intro rules name schema here
    rw [checkChild]
    refine (Unaware.onStore _).bind fun found => ?_
    cases found <;> exact .pure _
  case noChildren =>
    intro rules here
    rw [checkChildren]
    exact .pure _
  case moreChildren =>
    intro rules child rest here ihc ihr
    rw [checkChildren]
    refine Unaware.bind ihc fun found => ?_
    cases found with
    | ok output =>
      refine Unaware.bind ihr fun found => ?_
      cases found <;> exact .pure _
    | error report =>
      dsimp only
      split
      · refine Unaware.bind ihr fun found => ?_
        cases found <;> exact .pure _
      · exact .pure _
  case noMembers =>
    intro rules index value here
    rw [checkMembers]
    exact .pure _
  case moreMembers =>
    intro rules index member rest value here ihm ihr
    rw [checkMembers]
    refine Unaware.bind ihm fun found => ?_
    cases found with
    | ok output => exact .pure _
    | error report =>
      refine (Unaware.record _).bind fun _ => Unaware.bind ihr fun found => ?_
      cases found <;> exact .pure _
  case everyDone =>
    intro rules index merged value here
    rw [checkEvery]
    exact .pure _
  case everyMore =>
    intro rules index member rest merged value here ihm ihr
    rw [checkEvery]
    refine Unaware.bind ihm fun found => ?_
    cases found with
    | error causes => exact .pure _
    | ok output =>
      dsimp only
      split
      · exact ihr _
      · exact .pure _

/-- A validation does not look at the journal. -/
theorem Validator.validate_unaware (validator : Validator) (value : Json) :
    Unaware (validator.validate value) := by
  refine Unaware.bind (unaware_inductive.holds _ _ _ _) fun found => ?_
  cases found with
  | ok output => exact .pure _
  | error report =>
    exact .readStore (fun _ => rfl) fun _ => (Unaware.record _).bind fun _ => .pure _

/-- The check of an answer does not look at the journal. -/
theorem checkAnswer_unaware (output : Validator) (answer : Answer) :
    Unaware (checkAnswer output answer) := by
  cases answer with
  | error failure => exact .pure _
  | ok produced =>
    refine (output.validate_unaware produced).bind fun found => ?_
    cases found with
    | ok accepted => exact .pure _
    | error report =>
      exact .readStore (fun _ => rfl) fun _ => (Unaware.record _).bind fun _ => .pure _

/-- The script of a handler does not look at the journal. -/
theorem Script.run_unaware {α : Type} (script : Script α) : Unaware script.run := by
  induction script with
  | done result => exact .pure result
  | validate validator value next ih => exact (validator.validate_unaware value).bind ih

variable {γ : Type}

/-- A link does not look at the journal, in its turn or when an answer comes back. -/
structure Handler.LooksAway (link : Handler γ) : Prop where
  /-- It does not in its turn. -/
  act : ∀ request, Unaware (link.act request)
  /-- It does not for an answer that comes back. -/
  back : ∀ request session answer, Unaware ((link.act request session).1.back answer)

/-- A chain does not look at the journal if its links do not. -/
theorem Chain.handle_unaware_of_links (context : γ) {chain : Chain γ}
    (hlinks : ∀ link ∈ chain, link.LooksAway) (input : Json) :
    Unaware (Chain.handle context chain input) := by
  induction chain generalizing input with
  | nil =>
    rw [Chain.handle, Chain.acts, Middleware.handle]
    exact .pure _
  | cons link rest ih =>
    obtain ⟨hlink, hrest⟩ := List.forall_mem_cons.mp hlinks
    rw [Chain.handle, Chain.acts, Middleware.handle]
    refine (hlink.act _).bindResult fun session => ?_
    have hback := hlink.back ⟨input, context, (Chain.acts rest).length⟩ session
    cases hmove : (link.act ⟨input, context, (Chain.acts rest).length⟩ session).1 with
    | answer reply => exact .pure _
    | handOn next after =>
      rw [hmove] at hback
      exact (ih hrest next).bind hback

/-- No link looks at the journal. -/
theorem Handler.looksAway (link : Handler γ) : link.LooksAway := by
  induction link using Handler.induction with
  | custom label handle =>
    refine ⟨fun request => ?_, fun request session answer => ?_⟩
    · rw [Handler.act]
      exact (Unaware.record _).bind fun _ => (Script.run_unaware _).bind fun _ => .pure _
    · rw [Handler.act_custom]
      cases ((handle request).run (Session.record
          (.handlerInvoked label request.input request.remaining) session).2).1 with
      | answer reply => exact .pure _
      | handOn next after => exact (after answer).run_unaware
  | router gate output chain ih =>
    refine ⟨fun request => ?_, fun request session answer => ?_⟩
    · rw [Handler.act]
      refine (gate.validate_unaware request.input).bind fun found => ?_
      cases found with
      | ok accepted =>
        exact (Unaware.record _).bind fun _ =>
          (Chain.handle_unaware_of_links request.context ih accepted).bind fun _ =>
            (checkAnswer_unaware _ _).bind fun _ => .pure _
      | error report =>
        exact .readStore (fun _ => rfl) fun _ => (Unaware.record _).bind fun _ => .pure _
    · rw [Handler.act_router]
      rcases gate.validate request.input session with ⟨report | accepted, later⟩ <;> exact .pure _

/-- A chain does not look at the journal. -/
theorem Chain.handle_unaware (context : γ) (chain : Chain γ) (input : Json) :
    Unaware (Chain.handle context chain input) :=
  Chain.handle_unaware_of_links context (fun link _ => link.looksAway) input

/-- A run of a chain does not look at the journal. -/
theorem Chain.run_unaware (context : γ) (chain : Chain γ) (input : Json) :
    Unaware (chain.run context input) :=
  (Unaware.record _).bind fun _ => chain.handle_unaware context input

/-- A router does not look at the journal. -/
theorem Router.dispatch_unaware (context : γ) (router : Router γ) (accepted : Json) :
    Unaware (router.dispatch context accepted) :=
  (router.chain.run_unaware context accepted).bind fun _ => checkAnswer_unaware _ _

end Conformance
