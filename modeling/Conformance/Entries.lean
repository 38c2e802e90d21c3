/-!
# Rows of named entries

A row of entries keeps its own order, and the first entry of a name is the
one that counts. Replacing a value keeps the place of its name.
-/

namespace Conformance.Entries

variable {α : Type}

/-- The value under a name, if the row has one. -/
def lookup (name : String) : List (String × α) → Option α
  | [] => none
  | (n, value) :: rest => if n = name then some value else lookup name rest

/-- The row with a value under a name: in the place of the name if the row has
it, else at the end. -/
def insert (name : String) (value : α) : List (String × α) → List (String × α)
  | [] => [(name, value)]
  | (n, v) :: rest => if n = name then (n, value) :: rest else (n, v) :: insert name value rest

/-- The row without the entries of a name. -/
def erase (name : String) (row : List (String × α)) : List (String × α) :=
  row.filter fun entry => entry.1 ≠ name

/-- A name holds the value that was put under it. -/
theorem lookup_insert_self (name : String) (value : α) (row : List (String × α)) :
    lookup name (insert name value row) = some value := by
  induction row with
  | nil => simp [insert, lookup]
  | cons entry rest ih =>
    obtain ⟨n, v⟩ := entry
    by_cases h : n = name <;> simp [insert, lookup, h, ih]

/-- Putting a value under a name changes no other name. -/
theorem lookup_insert_of_ne {name other : String} (h : other ≠ name) (value : α)
    (row : List (String × α)) : lookup other (insert name value row) = lookup other row := by
  induction row with
  | nil => simp [insert, lookup, Ne.symm h]
  | cons entry rest ih =>
    obtain ⟨n, v⟩ := entry
    by_cases hn : n = name
    · subst hn
      simp [insert, lookup, Ne.symm h]
    · simp [insert, lookup, hn, ih]

/-- An erased name holds nothing. -/
theorem lookup_erase_self (name : String) (row : List (String × α)) :
    lookup name (erase name row) = none := by
  induction row with
  | nil => rfl
  | cons entry rest ih =>
    obtain ⟨n, v⟩ := entry
    by_cases h : n = name
    · simpa [erase, h] using ih
    · simpa [erase, lookup, h] using ih

end Conformance.Entries
