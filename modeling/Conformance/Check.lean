import Conformance.Check.Merge
import Conformance.Check.Position
import Conformance.Check.View
import Conformance.Journal
import Conformance.Schema.Display

/-!
# Checking a value against a schema

The check walks a value along a schema and gives the accepted output, pruned
to what is declared and as the policy changed it, or a report. A reference is
followed unless it is already being followed at the same node, or too many
are. Members of a union are checked for their first rejection only.

The walk ends because a child nests less deeply than its container, a
reference uses up one of finitely many hops, and every other step goes to a
proper part of the schema; the depth limit plays no part in this.
-/

namespace Conformance

/-- The output for an accepted value, or a report. -/
abbrev Outcome := Except Report Json

/-- A step that does not enlarge the first component and lessens the rest. -/
theorem lex_of_le {a b : Nat} {p q : Nat × Nat} (h : a ≤ b)
    (hr : Prod.Lex (· < ·) (· < ·) p q) :
    Prod.Lex (· < ·) (Prod.Lex (· < ·) (· < ·)) (a, p) (b, q) := by
  rcases Nat.lt_or_eq_of_le h with hlt | rfl
  · exact .left _ _ hlt
  · exact .right _ hr

/-- Checks a leaf by the policy. -/
def checkLeaf (rules : Rules) (leaf : Leaf) (value : Json) (here : Position) :
    StateM Session Outcome := do
  match rules.policy.check leaf value with
  | .ok output =>
    Session.record (.leafChecked leaf value true)
    return .ok output
  | .error cause =>
    Session.record (.leafChecked leaf value false)
    return .error (here.reject cause)

mutual

/-- Checks a value against a schema at a position. -/
def check (rules : Rules) (schema : Schema) (value : Json) (here : Position) :
    StateM Session Outcome :=
  match schema with
  | .leaf leaf => checkLeaf rules leaf value here
  | .nullable inner =>
    if value.isNull then pure (.ok .null) else check rules inner value here
  | .union members => do
    match ← checkMembers rules.failFast 0 members value here with
    | .ok output => pure (.ok output)
    | .error attempts =>
      let expected := (Schema.union members).render (← get).store
      pure (.error (here.reject (.noMemberMatched expected attempts)))
  | .intersection members => checkEvery rules 0 members none value here
  | .reference r =>
    if here.mayEnter r.cell then do
      match ← Session.onStore (Store.fetch? r.cell) with
      | some target => check rules target value (here.enter r.cell)
      | none => pure (.error (here.reject .unresolvedReference))
    else pure (.error (here.reject .cyclicReference))
  | schema =>
    match View.of schema value with
    | .plain => pure (.ok value)
    | .mismatch expected => pure (.error (here.reject (.shapeMismatch expected value.kind)))
    | .container children assemble _ =>
      if rules.maxDepth ≤ here.path.length then
        pure (.error (here.reject (.depthExceeded rules.maxDepth)))
      else do
        match ← checkChildren rules children here with
        | .ok outputs => pure (.ok (assemble outputs))
        | .error report => pure (.error report)
termination_by (value.nesting, maxHops - here.entered.length, sizeOf schema)
decreasing_by
  · decreasing_tactic
  · decreasing_tactic
  · decreasing_tactic
  · exact .right _ (.left _ _ (Position.hops_enter_lt ‹_›))
  · exact .left _ _ ‹_›

/-- Checks one child of the container at a position. An absent child that may be
absent has no output. -/
def checkChild (rules : Rules) (child : Child) (here : Position) :
    StateM Session (Except Report (Option Json)) :=
  match child with
  | .present segment schema value => do
    match ← check rules schema value (here.child segment) with
    | .ok output => pure (.ok (some output))
    | .error report => pure (.error report)
  | .absent name schema => do
    if ← Session.onStore schema.acceptsAbsent then pure (.ok none)
    else pure (.error ((here.child (.key name)).reject (.missingField name)))
termination_by (child.nesting, maxHops + 1, 0)
decreasing_by exact .right _ (.left _ _ (Nat.lt_succ_self _))

/-- Checks children in order, with their outputs in their places. After a
rejection the others are checked only if all rejections are reported. -/
def checkChildren (rules : Rules) (children : List Child) (here : Position) :
    StateM Session (Except Report (List (Option Json))) :=
  match children with
  | [] => pure (.ok [])
  | child :: rest => do
    match ← checkChild rules child here with
    | .ok output =>
      match ← checkChildren rules rest here with
      | .ok outputs => pure (.ok (output :: outputs))
      | .error report => pure (.error report)
    | .error report =>
      if rules.mode = .collectAll then do
        match ← checkChildren rules rest here with
        | .ok _ => pure (.error report)
        | .error more => pure (.error (report.append more))
      else pure (.error report)
termination_by (Child.nestingAll children, maxHops + 1, children.length)
decreasing_by
  · exact lex_of_le (Nat.le_max_left _ _) (.right _ (Nat.succ_pos _))
  · exact lex_of_le (Nat.le_max_right _ _) (.right _ (Nat.lt_succ_self _))
  · exact lex_of_le (Nat.le_max_right _ _) (.right _ (Nat.lt_succ_self _))

/-- Checks the members of a union in order and gives the output of the first that
accepts, or else the first rejection of each. -/
def checkMembers (rules : Rules) (index : Nat) (members : List Schema) (value : Json)
    (here : Position) : StateM Session (Except (List Rejection) Json) :=
  match members with
  | [] => pure (.error [])
  | member :: rest => do
    match ← check rules member value here with
    | .ok output => pure (.ok output)
    | .error report => do
      Session.record (.memberRejected index report.head)
      match ← checkMembers rules (index + 1) rest value here with
      | .ok output => pure (.ok output)
      | .error attempts => pure (.error (report.head :: attempts))
termination_by (value.nesting, maxHops - here.entered.length, sizeOf members)

/-- Checks all members of an intersection in order and merges their outputs into
what the earlier ones gave. -/
def checkEvery (rules : Rules) (index : Nat) (members : List Schema) (merged : Option Json)
    (value : Json) (here : Position) : StateM Session Outcome :=
  match members with
  | [] => pure (.ok (merged.getD value))
  | member :: rest => do
    match ← check rules member value here with
    | .error causes => pure (.error (here.reject (.memberFailed index causes)))
    | .ok output =>
      match mergeInto merged output with
      | .ok output => checkEvery rules (index + 1) rest (some output) value here
      | .error way => pure (.error (.singleton ⟨here.path ++ way, .conflict index⟩))
termination_by (value.nesting, maxHops - here.entered.length, sizeOf members)

end

end Conformance
