import Conformance.Rejection

/-!
# Leaf policies

A policy decides how each kind of leaf accepts a value, and which value an
accepted one becomes. The strict policy changes nothing. The other reads
numbers and truth values from text and drops the fraction of an integer.
-/

namespace Conformance

/-- The value that a leaf accepts, or the cause of its refusal. -/
abbrev Verdict := Except Cause Json

namespace Verdict

/-- The refusal of a value whose kind is not the expected one. -/
def mismatch (expected : String) (value : Json) : Verdict :=
  .error (.typeMismatch expected value.kind)

end Verdict

/-- Accepts texts that are not empty. -/
def acceptNonEmptyText (value : Json) : Verdict :=
  match value with
  | .string text =>
    if text.isEmpty then .error (.typeMismatch "non-empty string" "empty string") else .ok value
  | _ => .mismatch "non-empty string" value

/-- Accepts the values that equal a constant. -/
def acceptLiteral (constant : Literal) (value : Json) : Verdict :=
  if constant.accepts value then .ok value
  else .error (.literalMismatch constant value.describe)

/-- A way to check every kind of leaf. -/
structure Policy where
  /-- The name under which the policy is reported. -/
  name : String
  /-- The check of numbers. -/
  number : Json → Verdict
  /-- The check of integers. -/
  int : Json → Verdict
  /-- The check of texts. -/
  string : Json → Verdict
  /-- The check of truth values. -/
  boolean : Json → Verdict
  /-- The check of doubles, which is that of numbers unless replaced. -/
  float : Json → Verdict := number
  /-- The check of identifiers, which never changes a value unless replaced. -/
  id : Json → Verdict := acceptNonEmptyText
  /-- The check of constants, which never changes a value unless replaced. -/
  literal : Literal → Json → Verdict := acceptLiteral

namespace Policy

/-- The verdict on a value for a kind of leaf. -/
def check (policy : Policy) : Leaf → Json → Verdict
  | .number => policy.number
  | .int => policy.int
  | .float => policy.float
  | .string => policy.string
  | .boolean => policy.boolean
  | .id => policy.id
  | .literal constant => policy.literal constant

/-- Accepts numbers. -/
def strictNumber (value : Json) : Verdict :=
  match value with
  | .number _ => .ok value
  | _ => .mismatch "number" value

/-- Accepts numbers without fractional part. -/
def strictInt (value : Json) : Verdict :=
  match value with
  | .number n =>
    if n.isIntegral then .ok value else .error (.typeMismatch "int" "fractional number")
  | _ => .mismatch "int" value

/-- Accepts texts. -/
def strictString (value : Json) : Verdict :=
  match value with
  | .string _ => .ok value
  | _ => .mismatch "string" value

/-- Accepts truth values. -/
def strictBoolean (value : Json) : Verdict :=
  match value with
  | .bool _ => .ok value
  | _ => .mismatch "boolean" value

/-- The policy that accepts values of the exact kind and changes none. -/
def strict : Policy where
  name := "strict"
  number := strictNumber
  int := strictInt
  string := strictString
  boolean := strictBoolean

/-- Accepts numbers, and texts that read as one. -/
def lenientNumber (value : Json) : Verdict :=
  match value with
  | .number _ => .ok value
  | .string text =>
    match Number.parse? text with
    | some n => .ok (.number n)
    | none => .error (.coercionFailed "number" text)
  | _ => .mismatch "number" value

/-- Accepts numbers, and texts that read as one, rounded toward zero. -/
def lenientInt (value : Json) : Verdict :=
  match value with
  | .number n => .ok (.number n.truncate)
  | .string text =>
    match Number.parse? text with
    | some n => .ok (.number n.truncate)
    | none => .error (.coercionFailed "int" text)
  | _ => .mismatch "int" value

/-- Accepts truth values, and the texts that name one. -/
def lenientBoolean (value : Json) : Verdict :=
  match value with
  | .bool _ => .ok value
  | .string text =>
    if text = "true" then .ok (.bool true)
    else if text = "false" then .ok (.bool false)
    else .error (.coercionFailed "boolean" text)
  | _ => .mismatch "boolean" value

/-- The policy that reads numbers and truth values from text. -/
def nonStrict : Policy where
  name := "non-strict"
  number := lenientNumber
  int := lenientInt
  string := strictString
  boolean := lenientBoolean

end Policy

end Conformance
