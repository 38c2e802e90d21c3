import Conformance.Check

/-!
# The traversal of a value

A check as one walk that changes a state of its own: the stack of segments that leads to
the node, the references that were entered there, and whether all rejections are collected.
A step puts back what it changed before it ends, whether it accepts or rejects. The depth is
counted apart from the stack. Lists, declared fields and records have a loop each, which
ends at the first rejection unless all are collected.

Each step walks what lies below it by the walk that it is given. References may lead back to
where they came from, so the whole walk has a budget for the nodes on one branch, and no result
once the budget is used up.
-/

namespace Conformance

/-- The state of one walk. -/
structure Traversal where
  /-- The policy for leaves. -/
  policy : Policy
  /-- Whether a loop goes on after a rejection. -/
  collectAll : Bool
  /-- How deep the value may nest. -/
  maxDepth : Nat
  /-- The segments from the root to the node. -/
  path : Array Segment
  /-- The references that were entered since the last step into the value. -/
  entered : Array Reference

/-- A step of a walk, which need not end. -/
abbrev Traversing (α : Type) := StateT Traversal (StateT Session Option) α

namespace Traversal

/-- Runs a step on the session. -/
def onSession {α : Type} (step : StateM Session α) : Traversing α := fun traversal session =>
  some (((step session).1, traversal), (step session).2)

/-- The rejection of the node for one cause. -/
def fail (cause : Cause) : Traversing Report := do
  return .singleton ⟨(← get).path.toList, cause⟩

/-- The rejection of a child for one cause. -/
def failAt (segment : Segment) (cause : Cause) : Traversing Report := do
  modify fun traversal => { traversal with path := traversal.path.push segment }
  let failure ← fail cause
  modify fun traversal => { traversal with path := traversal.path.pop }
  return failure

/-- Checks a leaf by the policy. -/
def leaf (leaf : Leaf) (value : Json) : Traversing Outcome := do
  match (← get).policy.check leaf value with
  | .ok output =>
    onSession (Session.record (.leafChecked leaf value true))
    return .ok output
  | .error cause =>
    onSession (Session.record (.leafChecked leaf value false))
    return .error (← fail cause)

/-- Enters a container, unless it lies too deep. -/
def enter (depth : Nat) : Traversing (Except Report Unit) := do
  let traversal ← get
  if depth ≥ traversal.maxDepth then
    return .error (← fail (.depthExceeded traversal.maxDepth))
  return .ok ()

/-- Puts a failure after the ones before it, and says whether to go on. -/
def absorb (errors : Option Report) (failure : Report) : Traversing (Report × Bool) := do
  let all := match errors with
    | some existing => existing.append failure
    | none => failure
  return (all, (← get).collectAll)

/-- The end of a loop: its failures, or else its output. -/
def finish (errors : Option Report) (output : Json) : Outcome :=
  match errors with
  | some errors => .error errors
  | none => .ok output

/-- Merges the output of a member into what the earlier ones gave: objects key by key, where
equal data may come twice, and anything else only when equal. -/
def merge (previous next : Json) (member : Nat) : Traversing Outcome := do
  match previous, next with
  | .object merged, .object addition =>
    let mut entries := merged
    for (key, item) in addition do
      match Entries.lookup key entries with
      | some existing =>
        unless existing.sameData item do
          return .error (← failAt (.key key) (.conflict member))
      | none => entries := Entries.insert key item entries
    return .ok (.object entries)
  | previous, next =>
    if previous.sameData next then return .ok previous
    return .error (← fail (.conflict member))

/-- How a step walks what lies below it: a value along a schema at a depth. -/
abbrev Onward := Schema → Json → Nat → Traversing Outcome

section Steps

variable (onward : Onward)

/-- Walks a child, one level down and with no reference entered. -/
def descend (segment : Segment) (schema : Schema) (value : Json) (depth : Nat) :
    Traversing Outcome := do
  modify fun traversal => { traversal with path := traversal.path.push segment }
  let entered ← modifyGet fun traversal => (traversal.entered, { traversal with entered := #[] })
  let outcome ← onward schema value (depth + 1)
  modify fun traversal => { traversal with entered }
  modify fun traversal => { traversal with path := traversal.path.pop }
  return outcome

/-- Walks the items of a list in order. -/
def list (element : Schema) (value : Json) (depth : Nat) : Traversing Outcome := do
  let .array items := value | return .error (← fail (.shapeMismatch "list" value.kind))
  if let .error failure ← enter depth then return .error failure
  let mut output : Array Json := #[]
  let mut errors : Option Report := none
  for (item, index) in items.zipIdx do
    match ← descend onward (.index index) element item depth with
    | .ok accepted => output := output.push accepted
    | .error failure =>
      let (all, goOn) ← absorb errors failure
      errors := some all
      unless goOn do break
  return finish errors (.array output.toList)

/-- Walks what an object has for one declared field. A field that is absent and may be so has
no output. -/
def field (declared : Field Schema) (input : List (String × Json)) (depth : Nat) :
    Traversing (Except Report (Option Json)) := do
  match Entries.lookup declared.name input with
  | some item =>
    return (← descend onward (.key declared.name) declared.schema item depth).map some
  | none =>
    if ← onSession (Session.onStore declared.schema.acceptsAbsent) then return .ok none
    return .error (← failAt (.key declared.name) (.missingField declared.name))

/-- Walks the declared fields of an object in their declared order. -/
def fields (declaration : List (Field Schema)) (value : Json) (depth : Nat) :
    Traversing Outcome := do
  let .object input := value | return .error (← fail (.shapeMismatch "object" value.kind))
  if let .error failure ← enter depth then return .error failure
  let mut output : List (String × Json) := []
  let mut errors : Option Report := none
  for declared in declaration do
    match ← field onward declared input depth with
    | .ok (some accepted) => output := Entries.insert declared.name accepted output
    | .ok none => pure ()
    | .error failure =>
      let (all, goOn) ← absorb errors failure
      errors := some all
      unless goOn do break
  return finish errors (.object output)

/-- Walks the entries of an object in order. -/
def record (entry : Schema) (value : Json) (depth : Nat) : Traversing Outcome := do
  let .object input := value | return .error (← fail (.shapeMismatch "object" value.kind))
  if let .error failure ← enter depth then return .error failure
  let mut output : List (String × Json) := []
  let mut errors : Option Report := none
  for (key, item) in input do
    match ← descend onward (.key key) entry item depth with
    | .ok accepted => output := Entries.insert key accepted output
    | .error failure =>
      let (all, goOn) ← absorb errors failure
      errors := some all
      unless goOn do break
  return finish errors (.object output)

/-- Walks the members of a union up to the first that accepts, each for its first rejection
only. -/
def union (schema : Schema) (members : List Schema) (value : Json) (depth : Nat) :
    Traversing Outcome := do
  let collectAll ← modifyGet fun traversal =>
    (traversal.collectAll, { traversal with collectAll := false })
  let mut attempts : Array Rejection := #[]
  let mut accepted : Option Json := none
  for (member, index) in members.zipIdx do
    match ← onward member value depth with
    | .ok output =>
      accepted := some output
      break
    | .error failure =>
      onSession (Session.record (.memberRejected index failure.head))
      attempts := attempts.push failure.head
  modify fun traversal => { traversal with collectAll }
  match accepted with
  | some output => return .ok output
  | none =>
    let expected := schema.render (← onSession get).store
    return .error (← fail (.noMemberMatched expected attempts.toList))

/-- Walks all members of an intersection and merges their outputs in order. -/
def intersect (members : List Schema) (value : Json) (depth : Nat) : Traversing Outcome := do
  let mut merged : Option Json := none
  for (member, index) in members.zipIdx do
    match ← onward member value depth with
    | .error causes => return .error (← fail (.memberFailed index causes))
    | .ok output =>
      match merged with
      | none => merged := some output
      | some previous =>
        match ← merge previous output index with
        | .ok together => merged := some together
        | .error failure => return .error failure
  return .ok (merged.getD value)

/-- Walks a value of any shape, for its depth only. -/
def json (value : Json) (depth : Nat) : Traversing Outcome :=
  match value with
  | .array _ => list onward .json value depth
  | .object _ => record onward .json value depth
  | scalar => pure (.ok scalar)

/-- Walks a value along what a reference leads to, unless a reference with this target was
entered at the node already, or too many were. -/
def deferred (r : Reference) (value : Json) (depth : Nat) : Traversing Outcome := do
  let traversal ← get
  if traversal.entered.size ≥ maxHops ∨ traversal.entered.any fun seen => seen.sameTarget r then
    return .error (← fail .cyclicReference)
  let some target ← onSession (Session.onStore (Store.fetch? r.cell))
    | return .error (← fail .unresolvedReference)
  modify fun traversal => { traversal with entered := traversal.entered.push r }
  let outcome ← onward target value depth
  modify fun traversal => { traversal with entered := traversal.entered.pop }
  return outcome

/-- Walks a value along a schema, by one step. -/
def step (schema : Schema) (value : Json) (depth : Nat) : Traversing Outcome :=
  match schema with
  | .leaf kind => leaf kind value
  | .nullable inner => if value.isNull then pure (.ok .null) else onward inner value depth
  | .list element => list onward element value depth
  | .struct declaration => fields onward declaration value depth
  | .object _ declaration => fields onward declaration value depth
  | .union members => union onward schema members value depth
  | .intersection members => intersect onward members value depth
  | .record entry => record onward entry value depth
  | .json => json onward value depth
  | .any => pure (.ok value)
  | .reference r => deferred onward r value depth

end Steps

/-- Walks a value along a schema, with a budget for the nodes on one branch. -/
def visit : Nat → Onward
  | 0 => fun _ _ _ => failure
  | budget + 1 => step (visit budget)

/-- The state at the start of a walk. -/
def start (rules : Rules) : Traversal where
  policy := rules.policy
  collectAll := rules.mode = .collectAll
  maxDepth := rules.maxDepth
  path := #[]
  entered := #[]

/-- A whole walk. -/
def run (budget : Nat) (traversal : Traversal) (schema : Schema) (value : Json) :
    StateT Session Option Outcome := do
  let (outcome, _) ← visit budget schema value 0 traversal
  return outcome

end Traversal

end Conformance
