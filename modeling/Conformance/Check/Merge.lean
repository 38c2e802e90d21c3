import Conformance.Json
import Conformance.Path

/-!
# Merging the outputs of an intersection

Objects are merged key by key, and a key that both have must carry equal
data. Outputs of other kinds must be equal outright.
-/

namespace Conformance

/-- Merges the entries of a further output into an object: a key that both have
must carry equal data, and a new key goes to the end. The first key that
differs is the error. -/
def mergeEntries (merged : List (String × Json)) :
    List (String × Json) → Except String (List (String × Json))
  | [] => .ok merged
  | (key, value) :: rest =>
    match Entries.lookup key merged with
    | some existing =>
      if existing.sameData value then mergeEntries merged rest else .error key
    | none => mergeEntries (merged ++ [(key, value)]) rest

/-- Merges two outputs of an intersection: objects key by key, anything else only
when equal. The error is the way to the data that differ. -/
def mergeOutputs : Json → Json → Except Path Json
  | .object merged, .object addition =>
    match mergeEntries merged addition with
    | .ok entries => .ok (.object entries)
    | .error key => .error [.key key]
  | previous, next => if previous.sameData next then .ok previous else .error []

/-- Merges an output into what earlier members gave, if there were any. -/
def mergeInto (merged : Option Json) (output : Json) : Except Path Json :=
  match merged with
  | none => .ok output
  | some previous => mergeOutputs previous output

end Conformance
