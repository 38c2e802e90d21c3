import Conformance.Check

/-!
# Validators

A validator binds a schema to a policy, a mode and a depth limit. A rejected
value leaves an event in the journal, with the type expression of the schema
as it reads at that moment.
-/

namespace Conformance

/-- A schema with the rules by which values are checked against it. -/
structure Validator extends Rules where
  /-- What values have to conform to. -/
  schema : Schema

namespace Validator

/-- The validator that settings describe. -/
def ofSettings (schema : Schema) (settings : Settings) : Validator :=
  { policy := settings.policy.policy, mode := settings.mode, maxDepth := settings.maxDepth, schema }

/-- Checks a value from its root. -/
def validate (validator : Validator) (value : Json) : StateM Session Outcome := do
  match ← check validator.toRules validator.schema value .root with
  | .ok output => pure (.ok output)
  | .error report =>
    let text := validator.schema.render (← get).store
    Session.record (.valueRejected text validator.policy.name report.length report.head)
    pure (.error report)

end Validator

end Conformance
