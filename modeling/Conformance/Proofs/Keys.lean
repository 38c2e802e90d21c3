import Mathlib.Data.List.Nodup
import Conformance.Check.Merge
import Conformance.Proofs.Containers

/-!
# Keys of objects

Within a row of distinct names the value under a name and the entry of the name
are the same thing. What a check puts together has no keys but those that it was
given: named outputs have the names of declared fields or entries, and merging
adds the keys of one object to those of another.
-/

namespace Conformance

namespace Entries

variable {α : Type} {name : String} {row more : List (String × α)}

/-- A name has a value exactly if it names an entry. -/
theorem lookup_isSome_iff : (lookup name row).isSome ↔ name ∈ row.map Prod.fst := by
  induction row with
  | nil => simp [lookup]
  | cons entry rest ih =>
    obtain ⟨n, v⟩ := entry
    by_cases h : n = name
    · simp [lookup, h]
    · simp only [lookup, h, if_false, List.map_cons, List.mem_cons, Ne.symm h, false_or, ih]

/-- A name has no value exactly if it names no entry. -/
theorem lookup_eq_none_iff : lookup name row = none ↔ name ∉ row.map Prod.fst := by
  rw [← lookup_isSome_iff, Option.not_isSome_iff_eq_none]

/-- The value under a name is that of an entry. -/
theorem mem_of_lookup {value : α} (h : lookup name row = some value) : (name, value) ∈ row := by
  induction row with
  | nil => cases h
  | cons entry rest ih =>
    obtain ⟨n, v⟩ := entry
    rw [lookup] at h
    split at h
    · next hn =>
      cases h
      rw [hn]
      exact List.mem_cons_self
    · exact List.mem_cons_of_mem _ (ih h)

/-- Where names are distinct, every entry is found under its name. -/
theorem lookup_of_mem {value : α} (hd : (row.map Prod.fst).Nodup) (h : (name, value) ∈ row) :
    lookup name row = some value := by
  induction row with
  | nil => cases h
  | cons entry rest ih =>
    obtain ⟨n, v⟩ := entry
    rw [List.map_cons, List.nodup_cons] at hd
    rcases List.mem_cons.mp h with heq | h
    · cases heq
      rw [lookup, if_pos rfl]
    · have hne : n ≠ name := by
        rintro rfl
        exact hd.1 (List.mem_map.mpr ⟨_, h, rfl⟩)
      rw [lookup, if_neg hne]
      exact ih hd.2 h

/-- The entries of the first row count before those of the second. -/
theorem lookup_append : lookup name (row ++ more) = (lookup name row).or (lookup name more) := by
  induction row with
  | nil => rfl
  | cons entry rest ih =>
    obtain ⟨n, v⟩ := entry
    rw [List.cons_append, lookup, lookup]
    split
    · rfl
    · exact ih

end Entries

namespace Json

/-- Every object in the value has distinct keys. -/
inductive DistinctKeys : Json → Prop
  /-- Null holds no object. -/
  | null : DistinctKeys .null
  /-- A truth value holds no object. -/
  | bool (value : Bool) : DistinctKeys (.bool value)
  /-- A number holds no object. -/
  | number (value : Number) : DistinctKeys (.number value)
  /-- A text holds no object. -/
  | string (value : String) : DistinctKeys (.string value)
  /-- The keys in the items of a list are distinct. -/
  | array {items : List Json} (h : ∀ item ∈ items, item.DistinctKeys) :
    DistinctKeys (.array items)
  /-- The keys of an object are distinct, and so are those in its values. -/
  | object {entries : List (String × Json)} (hkeys : (entries.map Prod.fst).Nodup)
    (h : ∀ entry ∈ entries, entry.2.DistinctKeys) : DistinctKeys (.object entries)

/-- The items of a list with distinct keys have distinct keys. -/
theorem DistinctKeys.item {items : List Json} (h : (Json.array items).DistinctKeys) {item : Json}
    (hi : item ∈ items) : item.DistinctKeys := by
  cases h with
  | array h => exact h item hi

/-- The keys of an object are distinct. -/
theorem DistinctKeys.keys {entries : List (String × Json)}
    (h : (Json.object entries).DistinctKeys) : (entries.map Prod.fst).Nodup := by
  cases h with
  | object hkeys _ => exact hkeys

/-- The values of an object with distinct keys have distinct keys. -/
theorem DistinctKeys.entry {entries : List (String × Json)}
    (h : (Json.object entries).DistinctKeys) {entry : String × Json} (he : entry ∈ entries) :
    entry.2.DistinctKeys := by
  cases h with
  | object _ h => exact h entry he

/-- The value under a key of an object with distinct keys has distinct keys. -/
theorem DistinctKeys.lookup {entries : List (String × Json)}
    (h : (Json.object entries).DistinctKeys) {key : String} {value : Json}
    (hl : Entries.lookup key entries = some value) : value.DistinctKeys :=
  h.entry (Entries.mem_of_lookup hl)

/-- Whether the value is an object with a key. -/
def HasKey (key : String) : Json → Prop
  | .object entries => (Entries.lookup key entries).isSome
  | _ => False

end Json

/-- A child is what its container has in its place: a present one is the node at its
segment, and an absent one is a key that the container lacks. -/
def Child.Within (container : Json) : Child → Prop
  | .present segment _ value => Path.node? [segment] container = some value ∧ value.DistinctKeys
  | .absent name _ =>
    ∃ entries, container = .object entries ∧ Entries.lookup name entries = none

/-- The items from a position on are the nodes at their positions. -/
theorem Child.within_ofItems (before : List Json) {schema : Schema} {items : List Json}
    {child : Child}
    (h : (Json.array (before ++ items)).DistinctKeys)
    (hc : child ∈ Child.ofItems schema before.length items) :
    child.Within (.array (before ++ items)) := by
  induction items generalizing before with
  | nil => cases hc
  | cons item rest ih =>
    rcases List.mem_cons.mp hc with rfl | hc
    · refine ⟨?_, h.item (by simp)⟩
      simp [Path.node?]
    · have hsplit : before ++ item :: rest = (before ++ [item]) ++ rest := by simp
      rw [hsplit] at h ⊢
      exact ih (before ++ [item]) h (by simpa using hc)

/-- What a container asks of its children it asks of what it has. -/
theorem Container.within {schema : Schema} {value : Json} {children : List Child}
    {assemble : List (Option Json) → Json} {child : Child}
    (hv : Container schema value children assemble) (h : value.DistinctKeys)
    (hc : child ∈ children) : child.Within value := by
  cases hv with
  | @items element items _ => exact Child.within_ofItems [] h hc
  | @entries entry entries _ =>
    obtain ⟨⟨key, item⟩, hm, rfl⟩ := List.mem_map.mp hc
    refine ⟨?_, h.entry hm⟩
    simp [Path.node?, Entries.lookup_of_mem h.keys hm]
  | @fields fields entries _ =>
    obtain ⟨field, _, rfl⟩ := List.mem_map.mp hc
    cases hl : Entries.lookup field.name entries with
    | some item =>
      rw [Child.ofField, hl]
      refine ⟨?_, h.lookup hl⟩
      simp [Path.node?, hl]
    | none =>
      rw [Child.ofField, hl]
      exact ⟨entries, rfl, hl⟩

/-- The outputs of no children have no names. -/
theorem nameOutputs_nil (names : List String) : nameOutputs names [] = [] := by
  rw [nameOutputs, List.zip_nil_right, List.filterMap_nil]

/-- An output stands under the name of its child. -/
theorem nameOutputs_cons_some (name : String) (names : List String) (output : Json)
    (outputs : List (Option Json)) :
    nameOutputs (name :: names) (some output :: outputs) =
      (name, output) :: nameOutputs names outputs := rfl

/-- A child without an output is left out. -/
theorem nameOutputs_cons_none (name : String) (names : List String)
    (outputs : List (Option Json)) :
    nameOutputs (name :: names) (none :: outputs) = nameOutputs names outputs := rfl

/-- Named outputs keep the order of the names. -/
theorem nameOutputs_keys_sublist (names : List String) (outputs : List (Option Json)) :
    ((nameOutputs names outputs).map Prod.fst).Sublist names := by
  induction names generalizing outputs with
  | nil => exact List.Sublist.refl _
  | cons name rest ih =>
    cases outputs with
    | nil =>
      rw [nameOutputs_nil]
      exact List.nil_sublist _
    | cons output outputs =>
      cases output with
      | none =>
        rw [nameOutputs_cons_none]
        exact (ih outputs).cons _
      | some output =>
        rw [nameOutputs_cons_some, List.map_cons]
        exact (ih outputs).cons_cons _

/-- A merged row has the keys of the two rows and no others. -/
theorem lookup_mergeEntries {merged addition result : List (String × Json)}
    (h : mergeEntries merged addition = .ok result) (key : String) :
    (Entries.lookup key result).isSome ↔
      (Entries.lookup key merged).isSome ∨ (Entries.lookup key addition).isSome := by
  induction addition generalizing merged with
  | nil =>
    cases h
    simp [Entries.lookup]
  | cons entry rest ih =>
    obtain ⟨k, value⟩ := entry
    rw [mergeEntries] at h
    split at h
    · next existing hl =>
      split at h
      · rw [ih h, Entries.lookup]
        split
        · next hk =>
          subst hk
          simp [hl]
        · rfl
      · cases h
    · next hl =>
      rw [ih h, Entries.lookup_append, Entries.lookup, Entries.lookup, Entries.lookup]
      split
      · simp
      · simp

/-- A row that cannot be merged has a key of the other row, where the data differ. -/
theorem mergeEntries_error {merged addition : List (String × Json)} {key : String}
    (h : mergeEntries merged addition = .error key) :
    (Entries.lookup key addition).isSome := by
  induction addition generalizing merged with
  | nil => cases h
  | cons entry rest ih =>
    obtain ⟨k, value⟩ := entry
    rw [mergeEntries] at h
    rw [Entries.lookup]
    split
    · rfl
    · split at h
      · split at h
        · exact ih h
        · cases h
          contradiction
      · exact ih h

/-- Merged outputs have the keys of the two and no others. -/
theorem mergeOutputs_hasKey {previous next output : Json}
    (h : mergeOutputs previous next = .ok output) {key : String} (hk : output.HasKey key) :
    previous.HasKey key ∨ next.HasKey key := by
  unfold mergeOutputs at h
  split at h
  · split at h
    · next hm =>
      cases h
      exact (lookup_mergeEntries hm key).mp hk
    · cases h
  · split at h
    · cases h
      exact .inl hk
    · cases h

end Conformance
