import Conformance.Rejection
import Conformance.Store

/-!
# Sessions and their journal

A session is a store together with a journal of what happened: the verdicts
on leaves, the members of unions that were passed over, the values that were
rejected, and the handlers that pipelines invoked. No check reads the
journal.
-/

namespace Conformance

/-- Something that happened in a session. -/
inductive Event where
  /-- A policy gave its verdict on a leaf. -/
  | leafChecked (leaf : Leaf) (value : Json) (accepted : Bool)
  /-- A member of a union rejected the value. -/
  | memberRejected (member : Nat) (first : Rejection)
  /-- A validator rejected a value. -/
  | valueRejected (schema policy : String) (count : Nat) (first : Rejection)
  /-- A chain of so many handlers started. -/
  | chainStarted (length : Nat)
  /-- A handler was invoked with so many handlers after it. -/
  | handlerInvoked (label : String) (input : Json) (remaining : Nat)
  /-- A gate refused its input. -/
  | inputRejected (schema : String) (first : Rejection)
  /-- A gate inside a chain passed its input on. -/
  | inputDeclined (schema : String) (first : Rejection)
  /-- The handlers behind a gate gave an output that it refused. -/
  | outputRejected (schema : String) (first : Rejection)

/-- An event as a line of a log. -/
structure LogLine where
  /-- How much the event matters. -/
  level : String
  /-- The named texts of the event, sorted by name. -/
  fields : List (String × String)
  deriving DecidableEq

/-- The line that an event writes to the log. Verdicts on leaves and invocations
of handlers write none. -/
def Event.logLine? : Event → Option LogLine
  | .memberRejected member first => some ⟨"TRACE",
      [("error", first.render), ("member", toString member),
       ("message", "union member rejected value")]⟩
  | .valueRejected schema policy count first => some ⟨"DEBUG",
      [("count", toString count), ("first", first.render), ("message", "value rejected"),
       ("policy", policy), ("schema", schema)]⟩
  | .chainStarted length => some ⟨"TRACE",
      [("message", "pipeline run"), ("middleware", toString length)]⟩
  | .inputRejected schema first => some ⟨"DEBUG",
      [("first", first.render), ("input", schema), ("message", "router input rejected")]⟩
  | .inputDeclined schema first => some ⟨"DEBUG",
      [("first", first.render), ("input", schema), ("message", "router declined input")]⟩
  | .outputRejected schema first => some ⟨"ERROR",
      [("first", first.render), ("message", "router handler produced invalid output"),
       ("output", schema)]⟩
  | .leafChecked _ _ _ | .handlerInvoked _ _ _ => none

/-- A store with the events so far, in order. -/
structure Session where
  /-- The cells behind references. -/
  store : Store
  /-- The events so far. -/
  journal : Array Event

namespace Session

/-- Adds an event to the journal. -/
def record (event : Event) : StateM Session Unit :=
  modify fun session => { session with journal := session.journal.push event }

/-- Runs a step on the store. -/
def onStore {α : Type} (step : StateM Store α) : StateM Session α := fun session =>
  let (result, store) := step session.store
  (result, { session with store })

end Session

end Conformance
