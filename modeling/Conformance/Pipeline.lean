import Conformance.Validator

/-!
# Pipelines

A pipeline is a row of links. A link either answers, or hands an input to the
rest of the row, at most once, and may change the answer that comes back.
Over JSON values a link is a handler, which may have values validated on the
way, or a router. A router is a chain of such links behind two validators:
the input is checked before any handler runs and the answer before it leaves.
A router mounted in a chain passes inputs that it does not accept on to the
rest unchanged.
-/

namespace Conformance

/-- Why a run gave no answer. -/
inductive PipelineError where
  /-- The chain ended before a handler answered. -/
  | unhandled
  /-- The input does not conform; no handler ran. -/
  | inputRejected (report : Report)
  /-- The answer of the handlers does not conform. -/
  | outputRejected (report : Report)
  /-- A handler failed, with these words. -/
  | handler (words : String)

namespace PipelineError

/-- The wording of a failure. -/
def message : PipelineError → String
  | .unhandled => "no middleware handled the input"
  | .inputRejected report => "input rejected: " ++ report.render
  | .outputRejected report => "output rejected: " ++ report.render
  | .handler words => words

/-- The report of a rejected input or answer. -/
def report? : PipelineError → Option Report
  | .inputRejected report => some report
  | .outputRejected report => some report
  | _ => none

end PipelineError

/-- The answer of a run, or why there is none. -/
abbrev Response (ω : Type) := Except PipelineError ω

/-- What a link sees of a run. -/
structure Call (γ ι : Type) where
  /-- The value to handle. -/
  input : ι
  /-- The context of the run. -/
  context : γ
  /-- How many links come after this one. -/
  remaining : Nat

/-- What a link does with a call. -/
inductive Move (m : Type → Type) (ι ω : Type) where
  /-- It answers by itself. -/
  | answer (answer : Response ω)
  /-- It hands an input to the rest of the row and makes its answer of theirs. -/
  | handOn (input : ι) (after : Response ω → m (Response ω))

/-- A link with effects of a kind, before it answers or hands an input on and when an answer
comes back. -/
abbrev Middleware (m : Type → Type) (γ ι ω : Type) := Call γ ι → m (Move m ι ω)

/-- Hands an input to the first link of a row. -/
def Middleware.handle {m : Type → Type} [Monad m] {γ ι ω : Type} (context : γ) :
    List (Middleware m γ ι ω) → ι → m (Response ω)
  | [], _ => pure (.error .unhandled)
  | first :: rest, input => do
    match ← first ⟨input, context, rest.length⟩ with
    | .answer answer => pure answer
    | .handOn next after => do
      let answer ← Middleware.handle context rest next
      after answer

/-- What a handler does on its way to a result. -/
inductive Script (α : Type) where
  /-- It has come to the result. -/
  | done (result : α)
  /-- It has a value validated and goes on with the outcome. -/
  | validate (validator : Validator) (value : Json) (next : Outcome → Script α)

/-- Does what a script says. -/
def Script.run {α : Type} : Script α → StateM Session α
  | .done result => pure result
  | .validate validator value next => do
    let outcome ← validator.validate value
    (next outcome).run

/-- An answer over JSON values. -/
abbrev Answer := Response Json

/-- A call over JSON values. -/
abbrev Request (γ : Type) := Call γ Json

/-- What a handler does with a request. -/
abbrev Step := Script (Move Script Json Json)

namespace Step

/-- The handler answers. -/
def answer (answer : Answer) : Step := .done (.answer answer)

/-- The handler hands an input on and makes its answer of the one that comes back. -/
def forward (input : Json) (after : Answer → Answer) : Step :=
  .done (.handOn input fun answer => .done (after answer))

/-- The request handed on as it is, and the answer handed back as it is. -/
def passOn (input : Json) : Step := .forward input id

end Step

/-- A link of a chain. -/
inductive Handler (γ : Type) where
  /-- A handler, reported under a label. -/
  | custom (label : String) (handle : Request γ → Step)
  /-- A router mounted as a handler. -/
  | router (input output : Validator) (chain : List (Handler γ))

/-- A chain of handlers. -/
abbrev Chain (γ : Type) := List (Handler γ)

variable {γ : Type}

/-- Checks the answer of the handlers behind a gate. -/
def checkAnswer (output : Validator) (answer : Answer) : StateM Session Answer := do
  match answer with
  | .error failure => pure (.error failure)
  | .ok produced =>
    match ← output.validate produced with
    | .ok accepted => pure (.ok accepted)
    | .error report =>
      let text := output.schema.render (← get).store
      Session.record (.outputRejected text report.head)
      pure (.error (.outputRejected report))

/-- A move of a handler, whose scripts are carried out. -/
def Move.perform : Move Script Json Json → Move (StateM Session) Json Json
  | .answer reply => .answer reply
  | .handOn input after => .handOn input fun reply => (after reply).run

mutual

/-- What a link does with a request. A handler is invoked. A router handles an input that it
accepts and passes on any other. -/
def Handler.act : Handler γ → Middleware (StateM Session) γ Json Json
  | .custom label handle => fun request => do
    Session.record (.handlerInvoked label request.input request.remaining)
    let move ← (handle request).run
    return move.perform
  | .router gate output chain => fun request => do
    match ← gate.validate request.input with
    | .ok accepted => do
      Session.record (.chainStarted chain.length)
      let produced ← Middleware.handle request.context (Chain.acts chain) accepted
      return .answer (← checkAnswer output produced)
    | .error report => do
      let text := gate.schema.render (← get).store
      Session.record (.inputDeclined text report.head)
      return .handOn request.input pure

/-- What the links of a chain do. -/
def Chain.acts : List (Handler γ) → List (Middleware (StateM Session) γ Json Json)
  | [] => []
  | link :: rest => link.act :: Chain.acts rest

end

/-- Hands an input to the first link of a chain. -/
def Chain.handle (context : γ) (chain : Chain γ) (input : Json) : StateM Session Answer :=
  Middleware.handle context (Chain.acts chain) input

/-- A run of a chain from its start. -/
def Chain.run (chain : Chain γ) (context : γ) (input : Json) : StateM Session Answer := do
  Session.record (.chainStarted chain.length)
  Chain.handle context chain input

/-- The chain as text: only its length. -/
def Chain.describe (chain : Chain γ) : String :=
  "Pipeline \x7b middleware: " ++ toString chain.length ++ " \x7d"

/-- A chain of handlers between two validators. -/
structure Router (γ : Type) where
  /-- What inputs have to pass. -/
  input : Validator
  /-- What answers have to pass. -/
  output : Validator
  /-- The handlers, which see accepted inputs only. -/
  chain : Chain γ

namespace Router

/-- Runs the handlers on an accepted input and checks their answer. -/
def dispatch (router : Router γ) (context : γ) (accepted : Json) : StateM Session Answer := do
  checkAnswer router.output (← router.chain.run context accepted)

/-- Checks an input, runs the handlers and checks their answer. -/
def run (router : Router γ) (context : γ) (input : Json) : StateM Session Answer := do
  match ← router.input.validate input with
  | .ok accepted => router.dispatch context accepted
  | .error report => do
    let text := router.input.schema.render (← get).store
    Session.record (.inputRejected text report.head)
    pure (.error (.inputRejected report))

/-- The router as a link of another chain. -/
def toHandler (router : Router γ) : Handler γ :=
  .router router.input router.output router.chain

end Router

end Conformance
