import Conformance.Proofs.Unaware

/-!
# The turns of a chain

A chain of handlers and routers takes a course through its links like any row of links. The
journal gains the invocations of the turns and no others: a handler is invoked once in its
turn, a router may run its own chain in its turn, and nothing is invoked when the answer goes
back. Two chains in a row are one chain whose second part goes on with what the first hands on
at its end; only the counts of links in the journal tell the difference.
-/

namespace Conformance

variable {γ : Type}

/-- The handlers that the journal says were invoked in a turn. -/
def Turn.invocations (turn : Turn (Handler γ) Session γ Json Json) : List Invocation :=
  turn.later.invocations.drop turn.start.invocations.length

namespace Turn.Happens

variable {turn : Turn (Handler γ) Session γ Json Json}

/-- In a turn that happens the journal gains the invocations of the turn. -/
theorem invocations_eq (h : turn.Happens Handler.act) :
    turn.later.invocations = turn.start.invocations ++ turn.invocations := by
  have hproceeds := turn.link.invokes.act turn.request turn.start
  rw [h] at hproceeds
  obtain ⟨invoked, hinvoked, _⟩ := hproceeds.invoked
  rw [Turn.invocations, hinvoked, List.drop_left]

end Turn.Happens

namespace Course.Occurs

variable {course : Course (Handler γ) Session γ Json Json} {input : Json} {session : Session}

/-- In a course the journal gains the invocations of its turns. -/
theorem invocations_eq (h : course.Occurs Handler.act input session) :
    course.last.invocations = session.invocations ++ course.turns.flatMap Turn.invocations := by
  induction h with
  | exhausted => exact (List.append_nil _).symm
  | answered h => rw [h.invocations_eq, List.flatMap_singleton]
  | @handedOn turn next after course h _ _ ih =>
    have hturns : (course.cons turn).turns = turn :: course.turns := rfl
    rw [hturns, List.flatMap_cons, ← List.append_assoc, ← h.invocations_eq]
    exact ih

end Course.Occurs

/-- What an event tells apart from how many links a chain has or has left. That a chain starts
tells nothing else: two chains in a row start twice, and as one chain they start once. -/
def Event.uncounted? : Event → Option Event
  | .chainStarted _ => none
  | .handlerInvoked label input _ => some (.handlerInvoked label input 0)
  | event => some event

/-- Two sessions are the same apart from how many links the journals count. -/
structure Session.AgreesUncounted (s t : Session) : Prop where
  /-- The stores are the same. -/
  store : s.store = t.store
  /-- The journals tell of the same events. -/
  events : s.journal.toList.filterMap Event.uncounted? =
    t.journal.toList.filterMap Event.uncounted?

/-- Two runs give the same, and leave sessions that are the same apart from counts. -/
def AgreeUncounted {α : Type} (run other : α × Session) : Prop :=
  run.1 = other.1 ∧ run.2.AgreesUncounted other.2

namespace Session.AgreesUncounted

variable {s t : Session}

/-- Events that tell the same apart from counts are recorded. -/
theorem record (h : s.AgreesUncounted t) {event other : Event}
    (he : event.uncounted? = other.uncounted?) :
    (Session.record event s).2.AgreesUncounted (Session.record other t).2 := by
  have hjournal : ∀ (event : Event) (session : Session),
      (Session.record event session).2.journal = session.journal.push event := fun _ _ => rfl
  refine ⟨h.store, ?_⟩
  rw [hjournal, hjournal, Array.toList_push, Array.toList_push, List.filterMap_append,
    List.filterMap_append, h.events, List.filterMap_cons, List.filterMap_cons, he]

/-- The start of a chain is recorded in one of the sessions. -/
theorem start (h : s.AgreesUncounted t) (length : Nat) :
    s.AgreesUncounted (Session.record (.chainStarted length) t).2 := by
  have hjournal : (Session.record (.chainStarted length) t).2.journal =
      t.journal.push (.chainStarted length) := rfl
  refine ⟨h.store, ?_⟩
  rw [hjournal, Array.toList_push, List.filterMap_append, h.events]
  exact (List.append_nil _).symm

/-- A third session is the same apart from counts. -/
theorem trans (h : s.AgreesUncounted t) {u : Session} (h' : t.AgreesUncounted u) :
    s.AgreesUncounted u :=
  ⟨h.store.trans h'.store, h.events.trans h'.events⟩

/-- An act that does not look at the journal does the same in both sessions. -/
theorem act (h : s.AgreesUncounted t) {α : Type} {act : StateM Session α} (hact : Unaware act) :
    AgreeUncounted (act s) (act t) := by
  have hfresh : s.fresh = t.fresh := congrArg (Session.mk · #[]) h.store
  rw [hact s, hact t, hfresh]
  refine ⟨rfl, rfl, ?_⟩
  rw [Array.toList_append, Array.toList_append, List.filterMap_append, List.filterMap_append,
    h.events]

end Session.AgreesUncounted

/-- What the link does with an input does not depend on how many links come after it. -/
def Handler.IgnoresRemaining (link : Handler γ) : Prop :=
  ∀ input context remaining other session, AgreeUncounted
    (link.act ⟨input, context, remaining⟩ session) (link.act ⟨input, context, other⟩ session)

/-- A link that ignores how many links come after it does the same wherever it stands. -/
theorem Handler.IgnoresRemaining.respects {link : Handler γ} (h : link.IgnoresRemaining) :
    link.act.Respects Session.AgreesUncounted := by
  constructor
  · intro input context remaining other s t hagree
    obtain ⟨hmove, hlater⟩ := hagree.act (link.looksAway.act ⟨input, context, remaining⟩)
    obtain ⟨hsame, hlast⟩ := h input context remaining other t
    exact ⟨hmove.trans hsame, hlater.trans hlast⟩
  · intro request start reply s t hagree
    exact hagree.act (link.looksAway.back request start reply)

/-- Links that ignore how many links come after them, in a longer chain, take the course
that they take alone, and at its end the rest of the chain goes on. -/
theorem Chain.handle_append (context : γ) {chain : Chain γ}
    (hignore : ∀ link ∈ chain, link.IgnoresRemaining) (more : Chain γ) (input : Json)
    {s t : Session} (hagree : s.AgreesUncounted t) :
    AgreeUncounted (Chain.handle context (chain ++ more) input s)
      ((Course.ofLinks Handler.act context chain input t).close (more.run context)) := by
  -- A run of the rest by itself records its start, which is not told apart.
  have hmore : ∀ input (s t : Session), s.AgreesUncounted t →
      AgreeUncounted (Chain.handle context more input s) (more.run context input t) :=
    fun input s t h => (h.start more.length).act (more.handle_unaware context input)
  simp only [Chain.handle, Chain.acts_eq_map] at hmore ⊢
  exact Course.handle_append context (fun link hm => (hignore link hm).respects) more hmore input
    hagree

end Conformance
