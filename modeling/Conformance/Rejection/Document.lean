import Conformance.Rejection

/-!
# Rejections as JSON documents

A rejection as data for machines: the name of its cause, what the cause
carries, its place and its wording.
-/

namespace Conformance

/-- A count or position as a JSON number; the counts of documents are in range. -/
def Json.ofNat (n : Nat) : Json := (Json.ofInt? n).getD .null

/-- The name of a cause. -/
def Cause.name : Cause → String
  | .typeMismatch _ _ => "TypeMismatch"
  | .shapeMismatch _ _ => "ShapeMismatch"
  | .missingField _ => "MissingField"
  | .noMemberMatched _ _ => "NoUnionMemberMatched"
  | .memberFailed _ _ => "IntersectMemberFailed"
  | .literalMismatch _ _ => "LiteralMismatch"
  | .coercionFailed _ _ => "CoercionFailed"
  | .conflict _ => "IntersectConflict"
  | .depthExceeded _ => "DepthExceeded"
  | .unresolvedReference => "UnresolvedReference"
  | .cyclicReference => "CyclicReference"

/-- A segment as data: a key by its text, an index by its number. -/
def Segment.toJson : Segment → Json
  | .key name => .string name
  | .index position => Json.ofNat position

mutual

/-- What a cause carries. -/
def Cause.details : Cause → List (String × Json)
  | .typeMismatch expected found | .shapeMismatch expected found =>
    [("expected", .string expected), ("found", .string found)]
  | .missingField field => [("field", .string field)]
  | .noMemberMatched expected attempts =>
    [("expected", .string expected), ("attempts", .array (Rejection.listToJson attempts))]
  | .memberFailed member ⟨first, others⟩ =>
    [("member", Json.ofNat member),
      ("causes", .array (Rejection.toJson first :: Rejection.listToJson others))]
  | .literalMismatch expected found =>
    [("expected", .string expected.toJson.render), ("found", .string found)]
  | .coercionFailed target input => [("target", .string target), ("input", .string input)]
  | .conflict member => [("member", Json.ofNat member)]
  | .depthExceeded limit => [("limit", Json.ofNat limit)]
  | .unresolvedReference | .cyclicReference => []

/-- A rejection as a document. -/
def Rejection.toJson : Located Cause → Json
  | ⟨path, cause⟩ => .object ([("kind", .string cause.name)] ++ cause.details
    ++ [("path", .string (Path.render path)), ("segments", .array (path.map Segment.toJson)),
      ("message", .string cause.message)])

/-- Rejections as documents, in order. -/
def Rejection.listToJson : List (Located Cause) → List Json
  | [] => []
  | first :: rest => Rejection.toJson first :: Rejection.listToJson rest

end

/-- The rejections of a report, their number and the text of the report. -/
def Report.entries (report : Report) : List (String × Json) :=
  [("errors", .array (Rejection.listToJson report.toList)), ("count", Json.ofNat report.length),
    ("display", .string report.render)]

/-- A report as a document. -/
def Report.toJson (report : Report) : Json := .object report.entries

end Conformance
