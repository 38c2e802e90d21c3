/-!
# Typed bags of values

A context holds at most one value for each key, and the key decides the type
of its value. The host fills it before a run; handlers only read it.
-/

namespace Conformance

/-- At most one value for each key, of the type that belongs to the key. -/
structure Context (κ : Type) (V : κ → Type) where
  /-- The stored values, with their keys. -/
  entries : List (Sigma V)

namespace Context

variable {κ : Type} {V : κ → Type} [DecidableEq κ]

/-- The context without values. -/
def empty : Context κ V := ⟨[]⟩

/-- The first value that a row stores for a key. -/
def find? (key : κ) : List (Sigma V) → Option (V key)
  | [] => none
  | ⟨k, value⟩ :: rest => if h : k = key then some (h ▸ value) else find? key rest

/-- The value of a key, if one is stored. -/
def get? (context : Context κ V) (key : κ) : Option (V key) := find? key context.entries

/-- Whether a value is stored for a key. -/
def contains (context : Context κ V) (key : κ) : Bool := (context.get? key).isSome

/-- Stores a value for a key in place of the previous one, which is returned. -/
def insert (context : Context κ V) (key : κ) (value : V key) :
    Option (V key) × Context κ V :=
  (context.get? key, ⟨⟨key, value⟩ :: context.entries.filter fun entry => entry.1 ≠ key⟩)

/-- The number of stored values. -/
def size (context : Context κ V) : Nat := context.entries.length

/-- Whether nothing is stored. -/
def isEmpty (context : Context κ V) : Bool := context.entries.isEmpty

/-- The context as text: only the number of its values. -/
def describe (context : Context κ V) : String :=
  "Context \x7b values: " ++ toString context.size ++ " \x7d"

end Context

end Conformance
