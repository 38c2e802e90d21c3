import Conformance.Path
import Conformance.Schema

/-!
# Rejections

A rejection is a cause at the path of the node that was rejected. A report
is a row of rejections in document order and never empty. The wording of all
causes is in `Cause.message`.
-/

namespace Conformance

/-- A row of at least one element. -/
structure NonEmpty (α : Type) where
  /-- The first element. -/
  head : α
  /-- The others, in order. -/
  tail : List α

namespace NonEmpty

variable {α : Type}

/-- The row of one element. -/
def singleton (a : α) : NonEmpty α := ⟨a, []⟩

/-- The elements in order. -/
def toList (row : NonEmpty α) : List α := row.head :: row.tail

/-- One row after the other. -/
def append (row more : NonEmpty α) : NonEmpty α := ⟨row.head, row.tail ++ more.toList⟩

/-- The number of elements. -/
def length (row : NonEmpty α) : Nat := row.tail.length + 1

/-- Appending rows appends their elements. -/
theorem toList_append (row more : NonEmpty α) :
    (row.append more).toList = row.toList ++ more.toList := rfl

/-- The length of a row counts its elements. -/
theorem length_toList (row : NonEmpty α) : row.toList.length = row.length := rfl

end NonEmpty

/-- A cause at the path of a node. -/
structure Located (α : Type) where
  /-- The way from the root to the node. -/
  path : Path
  /-- What is located there. -/
  cause : α

/-- Why a value was rejected. -/
inductive Cause where
  /-- The value is not of the kind that a leaf requires. -/
  | typeMismatch (expected found : String)
  /-- The value is not the container that the schema requires. -/
  | shapeMismatch (expected found : String)
  /-- A field that may not be absent is absent. -/
  | missingField (field : String)
  /-- No member of a union accepted the value; each attempt gives the first
  rejection of its member. -/
  | noMemberMatched (expected : String) (attempts : List (Located Cause))
  /-- A member of an intersection rejected the value. -/
  | memberFailed (member : Nat) (causes : NonEmpty (Located Cause))
  /-- The value differs from the required constant. -/
  | literalMismatch (expected : Literal) (found : String)
  /-- A text could not be read as the required kind. -/
  | coercionFailed (target input : String)
  /-- Two members of an intersection gave different data for one node. -/
  | conflict (member : Nat)
  /-- The value nests deeper than the limit. -/
  | depthExceeded (limit : Nat)
  /-- A reference leads nowhere. -/
  | unresolvedReference
  /-- References led back to themselves without descending into the value. -/
  | cyclicReference

/-- A cause with its place in the document. -/
abbrev Rejection := Located Cause

/-- The rejections of one check, in document order. -/
abbrev Report := NonEmpty Rejection

/-- The first words of a failed member, up to the rejection it names. -/
def memberFailedText (member : Nat) : String :=
  "intersection member #" ++ toString member ++ " rejected the value: "

/-- The wording of a cause. -/
def Cause.message : Cause → String
  | .typeMismatch expected found => "expected " ++ expected ++ ", found " ++ found
  | .shapeMismatch expected found => "expected " ++ expected ++ ", found " ++ found
  | .missingField field => "missing required field '" ++ field ++ "'"
  | .noMemberMatched expected _ => "value matches no member of " ++ expected
  | .memberFailed member ⟨⟨path, cause⟩, _⟩ =>
    memberFailedText member ++ path.render ++ ": " ++ cause.message
  | .literalMismatch expected found =>
    "expected literal " ++ expected.render ++ ", found " ++ found
  | .coercionFailed target input => "cannot coerce " ++ Text.quote input ++ " to " ++ target
  | .conflict member =>
    "intersection member #" ++ toString member ++ " disagrees with an earlier member"
  | .depthExceeded limit => "value nests deeper than " ++ toString limit ++ " levels"
  | .unresolvedReference => "deferred reference does not resolve to a descriptor"
  | .cyclicReference => "deferred references cycle without descending into the value"

namespace Rejection

/-- The wording of the cause. -/
def message (rejection : Rejection) : String := rejection.cause.message

/-- The path and the wording of the cause. -/
def render (rejection : Rejection) : String :=
  rejection.path.render ++ ": " ++ rejection.message

end Rejection

/-- The rejections of a report, one on each line. -/
def Report.render (report : Report) : String :=
  "\n".intercalate (report.toList.map Rejection.render)

end Conformance
