import Conformance.Json.Reader
import Conformance.Proofs.Keys

/-!
# What is read has distinct keys

A text may name a key of an object twice, and the reader keeps the last value in
the first place. So every value that was read has distinct keys, and what is said
of such values is said of every document.
-/

namespace Conformance

namespace Entries

variable {α : Type} {name : String} {value : α}

/-- Putting a value under a name adds no other entry. -/
theorem mem_insert {entry : String × α} {row : List (String × α)}
    (h : entry ∈ insert name value row) : entry = (name, value) ∨ entry ∈ row := by
  induction row with
  | nil => exact .inl (List.mem_singleton.mp h)
  | cons first rest ih =>
    obtain ⟨n, v⟩ := first
    by_cases hn : n = name
    · subst hn
      rw [insert, if_pos rfl, List.mem_cons] at h
      exact h.imp_right (List.mem_cons_of_mem _)
    · rw [insert, if_neg hn, List.mem_cons] at h
      rcases h with rfl | h
      · exact .inr List.mem_cons_self
      · exact (ih h).imp_right (List.mem_cons_of_mem _)

/-- Putting a value under a name keeps the names distinct. -/
theorem insert_keys_nodup {row : List (String × α)} (h : (row.map Prod.fst).Nodup) :
    ((insert name value row).map Prod.fst).Nodup := by
  induction row with
  | nil => exact List.nodup_singleton name
  | cons first rest ih =>
    obtain ⟨n, v⟩ := first
    rw [List.map_cons, List.nodup_cons] at h
    by_cases hn : n = name
    · subst hn
      rw [insert, if_pos rfl, List.map_cons, List.nodup_cons]
      exact h
    · rw [insert, if_neg hn, List.map_cons, List.nodup_cons]
      refine ⟨fun hmem => ?_, ih h.2⟩
      obtain ⟨entry, he, hfst⟩ := List.mem_map.mp hmem
      rcases mem_insert he with rfl | hr
      · exact hn hfst.symm
      · exact h.1 (List.mem_map.mpr ⟨entry, hr, hfst⟩)

end Entries

namespace Json

/-- Entries that are put into a row one after the other keep its keys distinct, and
those in its values. -/
theorem distinctKeys_foldl_insert {read row : List (String × Json)}
    (hread : ∀ entry ∈ read, entry.2.DistinctKeys) (hrow : (Json.object row).DistinctKeys) :
    (Json.object (read.foldl (fun es (k, v) => Entries.insert k v es) row)).DistinctKeys := by
  induction read generalizing row with
  | nil => exact hrow
  | cons entry rest ih =>
    have hfirst : entry.2.DistinctKeys := hread entry List.mem_cons_self
    refine ih (fun other h => hread other (List.mem_cons_of_mem _ h)) ?_
    refine .object (Entries.insert_keys_nodup hrow.keys) fun other h => ?_
    rcases Entries.mem_insert h with rfl | hr
    · exact hfirst
    · exact hrow.entry hr

/-- The number that was read holds no object. -/
theorem readNumber?_distinctKeys {cs rest : List Char} {value : Json}
    (h : readNumber? cs = some (value, rest)) : value.DistinctKeys := by
  simp only [readNumber?, bind, Option.bind_eq_some_iff] at h
  obtain ⟨numeral, _, h⟩ := h
  split at h
  · obtain ⟨n, _, h⟩ := Option.bind_eq_some_iff.mp h
    cases h
    exact .number n
  · cases h

/-- What the three readers read within a number of steps has distinct keys. -/
structure ReadsDistinct (fuel : Nat) : Prop where
  /-- So has a value. -/
  value : ∀ {cs rest value}, readValue? fuel cs = some (value, rest) → value.DistinctKeys
  /-- So have the items of a list. -/
  items : ∀ {cs rest items}, readItems? fuel cs = some (items, rest) →
    ∀ item ∈ items, item.DistinctKeys
  /-- So have the values of an object, before they are put into a row. -/
  entries : ∀ {cs rest entries}, readEntries? fuel cs = some (entries, rest) →
    ∀ entry ∈ entries, entry.2.DistinctKeys

/-- Nothing is read in no steps. -/
theorem ReadsDistinct.zero : ReadsDistinct 0 where
  value h := by cases h
  items h := by cases h
  entries h := by cases h

/-- One more step reads lists and objects from what was read so far. -/
theorem ReadsDistinct.succ {fuel : Nat} (ih : ReadsDistinct fuel) : ReadsDistinct (fuel + 1) where
  value h := by
    rw [readValue?] at h
    split at h
    · cases h
      exact .null
    · cases h
      exact .bool true
    · cases h
      exact .bool false
    · obtain ⟨⟨text, _⟩, _, h⟩ := Option.bind_eq_some_iff.mp h
      cases h
      exact .string text
    · split at h
      · cases h
        exact .array fun _ h => absurd h List.not_mem_nil
      · obtain ⟨⟨items, _⟩, hi, h⟩ := Option.bind_eq_some_iff.mp h
        cases h
        exact .array (ih.items hi)
    · have hempty : (Json.object []).DistinctKeys :=
        .object List.nodup_nil fun _ h => absurd h List.not_mem_nil
      split at h
      · cases h
        exact hempty
      · obtain ⟨⟨entries, _⟩, he, h⟩ := Option.bind_eq_some_iff.mp h
        cases h
        exact distinctKeys_foldl_insert (ih.entries he) hempty
    · exact readNumber?_distinctKeys h
  items h := by
    rw [readItems?] at h
    obtain ⟨⟨value, _⟩, hv, h⟩ := Option.bind_eq_some_iff.mp h
    dsimp only at h
    split at h
    · obtain ⟨⟨items, _⟩, hi, h⟩ := Option.bind_eq_some_iff.mp h
      cases h
      exact List.forall_mem_cons.mpr ⟨ih.value hv, ih.items hi⟩
    · cases h
      exact List.forall_mem_singleton.mpr (ih.value hv)
    · cases h
  entries h := by
    rw [readEntries?] at h
    split at h
    · obtain ⟨⟨key, _⟩, _, h⟩ := Option.bind_eq_some_iff.mp h
      dsimp only at h
      split at h
      · obtain ⟨⟨value, _⟩, hv, h⟩ := Option.bind_eq_some_iff.mp h
        dsimp only at h
        split at h
        · obtain ⟨⟨entries, _⟩, he, h⟩ := Option.bind_eq_some_iff.mp h
          cases h
          exact List.forall_mem_cons.mpr ⟨ih.value hv, ih.entries he⟩
        · cases h
          exact List.forall_mem_singleton.mpr (ih.value hv)
        · cases h
      · cases h
    · cases h

/-- A value that was read from a text has distinct keys. -/
theorem parse?_distinctKeys {text : String} {value : Json} (h : parse? text = some value) :
    value.DistinctKeys := by
  have hreads : ∀ fuel, ReadsDistinct fuel := fun fuel => by
    induction fuel with
    | zero => exact .zero
    | succ fuel ih => exact ih.succ
  rw [parse?] at h
  obtain ⟨⟨found, rest⟩, hf, h⟩ := Option.bind_eq_some_iff.mp h
  dsimp only at h
  split at h
  · cases h
    exact (hreads _).value hf
  · cases h

end Json

end Conformance
