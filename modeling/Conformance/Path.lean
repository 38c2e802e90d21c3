import Conformance.Json.Pointer

/-!
# Paths

A path leads from the root of a document to one of its nodes. It is written
as the JSON Pointer of its segments.
-/

namespace Conformance

/-- One step from a container to a child. -/
inductive Segment where
  /-- The child of an object under a key. -/
  | key (name : String)
  /-- The item of a list at a position. -/
  | index (position : Nat)
  deriving DecidableEq

/-- The segments from the root of a document, outermost first. -/
abbrev Path := List Segment

namespace Segment

/-- The text of a segment: its key, or its position in decimal digits. -/
def text : Segment → String
  | .key name => name
  | .index position => toString position

/-- The characters of a segment as a pointer token. -/
def token (segment : Segment) : List Char := Json.Pointer.escape segment.text.toList

/-- The text of a segment as a pointer token. -/
def render (segment : Segment) : String := String.ofList segment.token

end Segment

namespace Path

/-- The characters of the JSON Pointer: each token after a slash. -/
def pointerChars (path : Path) : List Char := path.flatMap fun segment => '/' :: segment.token

/-- The JSON Pointer; the root is the empty text. -/
def pointer (path : Path) : String := String.ofList path.pointerChars

/-- The text of a path in messages: its pointer, with a name for the root. -/
def render (path : Path) : String :=
  if path.isEmpty then "(root)" else path.pointer

/-- Walks a document along the segments, keys in objects and positions in
lists. -/
def node? : Path → Json → Option Json
  | [], value => some value
  | .key name :: rest, .object entries => (Entries.lookup name entries).bind (node? rest)
  | .index position :: rest, .array items => items[position]?.bind (node? rest)
  | _, _ => none

end Path

end Conformance
