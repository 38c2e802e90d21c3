import Conformance.Json

/-!
# JSON Pointers

A pointer (RFC 6901) is a row of tokens, each after a slash. Inside a token
the tilde is written `~0` and the slash `~1`. A token names a key of an
object, or a position in a list by decimal digits without a leading zero.
-/

namespace Conformance.Json.Pointer

/-- A character as it stands in a token. -/
def escapeChar (c : Char) : List Char :=
  if c = '~' then ['~', '0'] else if c = '/' then ['~', '1'] else [c]

/-- A text as it stands in a token. -/
def escape (cs : List Char) : List Char := cs.flatMap escapeChar

/-- Undoes the escapes; a tilde that starts none stands for itself. -/
def unescape : List Char → List Char
  | '~' :: '0' :: rest => '~' :: unescape rest
  | '~' :: '1' :: rest => '/' :: unescape rest
  | c :: rest => c :: unescape rest
  | [] => []

/-- Reading a token undoes writing it. -/
theorem unescape_escape (cs : List Char) : unescape (escape cs) = cs := by
  induction cs with
  | nil => rfl
  | cons c rest ih =>
    rw [escape, List.flatMap_cons, ← escape]
    by_cases ht : c = '~'
    · subst ht
      exact congrArg _ ih
    · by_cases hs : c = '/'
      · subst hs
        exact congrArg _ ih
      · simp [escapeChar, ht, hs, unescape, ih]

/-- The tokens between the slashes, as they are written. -/
def tokens : List Char → List (List Char)
  | [] => [[]]
  | '/' :: rest => [] :: tokens rest
  | c :: rest =>
    match tokens rest with
    | token :: more => (c :: token) :: more
    | [] => [[c]]

/-- The position that a token denotes in a list. -/
def index? (token : List Char) : Option Nat :=
  if token.isEmpty || !token.all Char.isDigit then none
  else if token.head? = some '0' ∧ token.length ≠ 1 then none
  else some (Numeral.digitsValue token)

/-- Follows tokens, their escapes undone, into a document. -/
def follow? : List (List Char) → Json → Option Json
  | [], value => some value
  | token :: rest, .object entries =>
    (Entries.lookup (String.ofList token) entries).bind (follow? rest)
  | token :: rest, .array items =>
    ((index? token).bind fun position => items[position]?).bind (follow? rest)
  | _, _ => none

/-- The node of a document that a pointer denotes, if there is one. -/
def lookup? (pointer : String) (document : Json) : Option Json :=
  match pointer.toList with
  | [] => some document
  | '/' :: rest => follow? ((tokens rest).map unescape) document
  | _ => none

end Conformance.Json.Pointer
