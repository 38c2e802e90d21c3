import Mathlib.Data.List.Forall2
import Conformance.Proofs.Repetition

/-!
# The order of keys

Two values are equal up to the order of keys if their objects have the same entries, in any
order and at any depth. Where keys are distinct this is the same as to find equal values under
every key. So it is kept when outputs are merged, which puts the keys of the one before those
that only the other has, and when outputs are named, which puts them in the order of names.
-/

namespace Conformance

/-- Two values that are equal up to the order of keys, at any depth. -/
inductive Json.Reordered : Json → Json → Prop
  /-- Null has no keys. -/
  | null : Reordered .null .null
  /-- A truth value has no keys. -/
  | bool (value : Bool) : Reordered (.bool value) (.bool value)
  /-- A number has no keys. -/
  | number (value : Number) : Reordered (.number value) (.number value)
  /-- A text has no keys. -/
  | string (value : String) : Reordered (.string value) (.string value)
  /-- The items of a list keep their order. -/
  | array {items others : List Json} (h : List.Forall₂ Reordered items others) :
    Reordered (.array items) (.array others)
  /-- The entries of one object, in some order, have the keys of the other, and values that
  are equal up to the order of keys. -/
  | object {entries ordered others : List (String × Json)} (hperm : entries.Perm ordered)
    (hkeys : ordered.map Prod.fst = others.map Prod.fst)
    (h : List.Forall₂ Reordered (ordered.map Prod.snd) (others.map Prod.snd)) :
    Reordered (.object entries) (.object others)

/-- Two entries have one key, and values that are equal up to the order of keys. -/
def EntryReordered (entry other : String × Json) : Prop :=
  entry.1 = other.1 ∧ entry.2.Reordered other.2

/-- Rows of such entries are rows of such values under the same keys. -/
theorem forall₂_entryReordered {entries others : List (String × Json)} :
    List.Forall₂ EntryReordered entries others ↔
      entries.map Prod.fst = others.map Prod.fst ∧
        List.Forall₂ Json.Reordered (entries.map Prod.snd) (others.map Prod.snd) := by
  induction entries generalizing others with
  | nil => cases others <;> simp
  | cons entry rest ih =>
    cases others with
    | nil => simp
    | cons other more =>
      simp only [List.forall₂_cons, List.map_cons, List.cons.injEq, ih, EntryReordered]
      exact and_and_and_comm

/-- What is found under a key in one row of such entries is found in the other, up to the
order of keys. -/
theorem lookup_entryReordered {entries others : List (String × Json)}
    (h : List.Forall₂ EntryReordered entries others) (key : String) :
    Option.Rel Json.Reordered (Entries.lookup key entries) (Entries.lookup key others) := by
  induction h with
  | nil => exact .none
  | @cons entry other rest more he _ ih =>
    obtain ⟨k, value⟩ := entry
    obtain ⟨k', value'⟩ := other
    obtain ⟨rfl, hvalue⟩ := he
    rw [Entries.lookup, Entries.lookup]
    split
    · exact .some hvalue
    · exact ih

/-- The order of entries with distinct names does not matter to what is found. -/
theorem Entries.lookup_perm {α : Type} {entries ordered : List (String × α)}
    (hkeys : (entries.map Prod.fst).Nodup) (h : entries.Perm ordered) (key : String) :
    lookup key entries = lookup key ordered := by
  have hkeys' : (ordered.map Prod.fst).Nodup := (h.map _).nodup_iff.mp hkeys
  cases hl : lookup key entries with
  | some value => exact (lookup_of_mem hkeys' (h.mem_iff.mp (mem_of_lookup hl))).symm
  | none =>
    rw [lookup_eq_none_iff, (h.map _).mem_iff, ← lookup_eq_none_iff] at hl
    exact hl.symm

namespace Json

variable {value other : Json}

/-- The rows of entries of two objects that are equal up to the order of keys. -/
theorem reordered_object {entries others : List (String × Json)} :
    (Json.object entries).Reordered (.object others) ↔
      ∃ ordered, entries.Perm ordered ∧ List.Forall₂ EntryReordered ordered others := by
  constructor
  · intro h
    cases h with
    | object hperm hkeys h => exact ⟨_, hperm, forall₂_entryReordered.mpr ⟨hkeys, h⟩⟩
  · rintro ⟨ordered, hperm, h⟩
    obtain ⟨hkeys, hvalues⟩ := forall₂_entryReordered.mp h
    exact .object hperm hkeys hvalues

/-- Where keys are distinct, what one of two such objects has under a key the other has, up
to the order of keys. -/
theorem Reordered.lookup {entries others : List (String × Json)}
    (hkeys : (entries.map Prod.fst).Nodup) (h : (Json.object entries).Reordered (.object others))
    (key : String) :
    Option.Rel Reordered (Entries.lookup key entries) (Entries.lookup key others) := by
  obtain ⟨ordered, hperm, hrow⟩ := reordered_object.mp h
  rw [Entries.lookup_perm hkeys hperm key]
  exact lookup_entryReordered hrow key

/-- Objects that have the same under each of their distinct keys, up to the order of keys,
are equal up to the order of keys. -/
theorem Reordered.of_lookup {entries others : List (String × Json)}
    (hkeys : (entries.map Prod.fst).Nodup) (hkeys' : (others.map Prod.fst).Nodup)
    (h : ∀ key, Option.Rel Reordered (Entries.lookup key entries) (Entries.lookup key others)) :
    (Json.object entries).Reordered (.object others) := by
  have hfound : ∀ f ∈ others, ∃ e, e ∈ entries ∧ EntryReordered e f := by
    intro f hf
    have hkey := h f.1
    rw [Entries.lookup_of_mem hkeys' hf] at hkey
    cases hl : Entries.lookup f.1 entries with
    | none =>
      rw [hl] at hkey
      cases hkey
    | some x =>
      rw [hl] at hkey
      cases hkey with
      | some hx => exact ⟨(f.1, x), Entries.mem_of_lookup hl, rfl, hx⟩
  obtain ⟨ordered, hrow⟩ := exists_forall₂_of_forall_mem hfound
  have hrow' : List.Forall₂ EntryReordered ordered others :=
    (hrow.imp fun _ _ he => he.2).flip
  have hsub : ordered ⊆ entries := fun e he => by
    obtain ⟨f, _, hm, _⟩ := exists_of_forall₂_of_mem hrow.flip he
    exact hm
  have hnodup : ordered.Nodup :=
    List.Nodup.of_map Prod.fst ((forall₂_entryReordered.mp hrow').1 ▸ hkeys')
  have hlength : entries.length ≤ ordered.length := by
    have hkeysub : entries.map Prod.fst ⊆ others.map Prod.fst := by
      intro key hkey
      rw [← Entries.lookup_isSome_iff] at hkey ⊢
      have hrel := h key
      generalize Entries.lookup key entries = x at hkey hrel
      generalize Entries.lookup key others = y at hrel ⊢
      cases hrel with
      | some => rfl
      | none => cases hkey
    have hle := (List.subperm_of_subset hkeys hkeysub).length_le
    rwa [List.length_map, List.length_map, ← hrow'.length_eq] at hle
  have hperm : ordered.Perm entries :=
    (List.subperm_of_subset hnodup hsub).perm_of_length_le hlength
  exact reordered_object.mpr ⟨ordered, hperm.symm, hrow'⟩

/-- A value with distinct keys is equal to itself. -/
theorem Reordered.refl (hd : value.DistinctKeys) : value.Reordered value := by
  induction hd with
  | null => exact .null
  | bool b => exact .bool b
  | number n => exact .number n
  | string s => exact .string s
  | array _ ih => exact .array (List.forall₂_same.mpr ih)
  | object _ _ ih =>
    exact reordered_object.mpr ⟨_, .refl _, List.forall₂_same.mpr fun e he => ⟨rfl, ih e he⟩⟩

/-- In another order the keys are still distinct. -/
theorem Reordered.distinctKeys (hd : value.DistinctKeys) (h : value.Reordered other) :
    other.DistinctKeys := by
  induction hd generalizing other with
  | null | bool | number | string =>
    cases h
    constructor
  | array _ ih =>
    cases h with
    | array hrow =>
      refine .array fun item hi => ?_
      obtain ⟨x, hx, hr⟩ := exists_of_forall₂_of_mem hrow.flip hi
      exact ih x hx hr
  | @object entries hkeys _ ih =>
    cases h with
    | @object _ ordered others hperm hnames hvalues =>
      refine .object (hnames ▸ (hperm.map _).nodup_iff.mp hkeys) fun f hf => ?_
      obtain ⟨e, he, _, hr⟩ :=
        exists_of_forall₂_of_mem (forall₂_entryReordered.mpr ⟨hnames, hvalues⟩).flip hf
      exact ih e (hperm.mem_iff.mpr he) hr

/-- Values that are equal up to the order of keys are equal data. -/
theorem Reordered.same (hd : value.DistinctKeys) (h : value.Reordered other) :
    value.Same other := by
  induction hd generalizing other with
  | null | bool | number | string =>
    cases h
    exact .refl (by constructor)
  | array _ ih =>
    cases h with
    | array hrow => exact same_array.mpr (forall₂_imp_of_mem hrow fun x hx y _ hr => ih x hx hr)
  | @object entries hkeys hvalues ih =>
    have hd' := h.distinctKeys (.object hkeys hvalues)
    cases h with
    | @object _ ordered others hperm hnames hrow =>
      rw [same_object hkeys hd'.keys]
      intro key
      have hrel := Reordered.lookup hkeys (.object hperm hnames hrow) key
      cases hl : Entries.lookup key entries with
      | none =>
        rw [hl] at hrel
        rw [rel_none_left hrel]
        exact .none
      | some x =>
        rw [hl] at hrel
        obtain ⟨y, hy, hr⟩ := rel_some_left hrel
        rw [hy]
        exact .some (ih _ (Entries.mem_of_lookup hl) hr)

end Json

/-- Entries that are equal up to the order of keys are merged into such entries. -/
theorem mergeEntries_reordered {merged addition result merged' addition' result' :
    List (String × Json)} (ha : (Json.object merged).DistinctKeys)
    (hb : (Json.object addition).DistinctKeys) (ha' : (Json.object merged').DistinctKeys)
    (hb' : (Json.object addition').DistinctKeys)
    (hra : (Json.object merged).Reordered (.object merged'))
    (hrb : (Json.object addition).Reordered (.object addition'))
    (h : mergeEntries merged addition = .ok result)
    (h' : mergeEntries merged' addition' = .ok result') :
    (Json.object result).Reordered (.object result') := by
  refine .of_lookup (mergeEntries_nodup ha.keys h) (mergeEntries_nodup ha'.keys h') fun key => ?_
  have hfirst := hra.lookup ha.keys key
  rw [(mergeEntries_lookup hb.keys h key).1, (mergeEntries_lookup hb'.keys h' key).1]
  cases hx : Entries.lookup key merged with
  | none =>
    rw [hx] at hfirst
    rw [rel_none_left hfirst]
    exact hrb.lookup hb.keys key
  | some x =>
    rw [hx] at hfirst
    obtain ⟨y, hy, hxy⟩ := rel_some_left hfirst
    rw [hy]
    exact .some hxy

/-- Outputs that are equal up to the order of keys are merged into such outputs, or neither
two can be merged. -/
theorem mergeOutputs_reordered {a b a' b' : Json} (ha : a.DistinctKeys) (hb : b.DistinctKeys)
    (hra : a.Reordered a') (hrb : b.Reordered b') :
    Option.Rel Json.Reordered (mergeOutputs a b).toOption (mergeOutputs a' b').toOption := by
  have ha' := hra.distinctKeys ha
  have hb' := hrb.distinctKeys hb
  have hsa := hra.same ha
  have hsb := hrb.same hb
  cases hm : mergeOutputs a b with
  | error way =>
    cases hm' : mergeOutputs a' b' with
    | error way' => exact .none
    | ok m' =>
      obtain ⟨m, hok, _⟩ := mergeOutputs_congr ha' hb' ha hb hsa hsb hm'
      rw [hm] at hok
      cases hok
  | ok m =>
    obtain ⟨m', hm', _⟩ := mergeOutputs_congr ha hb ha' hb' (hsa.symm ha ha') (hsb.symm hb hb') hm
    rw [hm']
    refine .some ?_
    rcases mergeOutputs_cases hm with
      ⟨merged, addition, result, rfl, rfl, rfl, hres⟩ | ⟨hne, _, rfl⟩ <;>
      rcases mergeOutputs_cases hm' with
        ⟨merged', addition', result', rfl, rfl, rfl, hres'⟩ | ⟨hne', _, rfl⟩
    · exact mergeEntries_reordered ha hb ha' hb' hra hrb hres hres'
    · cases hra
      exact absurd rfl (hne' _)
    · cases hra
      exact absurd rfl (hne _)
    · exact hra

/-- What an output is merged into has distinct keys if both have. -/
theorem mergeInto_distinctKeys {merged : Option Json} {output both : Json}
    (hmerged : ∀ a, merged = some a → a.DistinctKeys) (houtput : output.DistinctKeys)
    (h : mergeInto merged output = .ok both) : both.DistinctKeys := by
  cases merged with
  | none =>
    cases h
    exact houtput
  | some previous => exact mergeOutputs_distinctKeys (hmerged previous rfl) houtput h

/-- So it is with what was merged before, if anything was. -/
theorem mergeInto_reordered {merged merged' : Option Json} {output output' : Json}
    (hmerged : ∀ a, merged = some a → a.DistinctKeys) (hd : output.DistinctKeys)
    (hrel : Option.Rel Json.Reordered merged merged') (h : output.Reordered output') :
    Option.Rel Json.Reordered (mergeInto merged output).toOption
      (mergeInto merged' output').toOption := by
  cases hrel with
  | none => exact .some h
  | some ha => exact mergeOutputs_reordered (hmerged _ rfl) hd ha h

/-- Two children ask the same of values that are equal up to the order of keys. -/
inductive Child.Reordered : Child → Child → Prop
  /-- Present children have one place and one schema. -/
  | present (segment : Segment) (schema : Schema) {value other : Json}
    (h : value.Reordered other) :
    Reordered (.present segment schema value) (.present segment schema other)
  /-- Absent children have one name and one schema. -/
  | absent (name : String) (schema : Schema) :
    Reordered (.absent name schema) (.absent name schema)

/-- A declared field is looked up in objects that are equal up to the order of keys. -/
theorem Child.ofField_reordered {entries others : List (String × Json)}
    (hkeys : (entries.map Prod.fst).Nodup)
    (h : (Json.object entries).Reordered (.object others)) (field : Field Schema) :
    (Child.ofField entries field).Reordered (Child.ofField others field) := by
  have hrel := h.lookup hkeys field.name
  rw [Child.ofField, Child.ofField]
  generalize Entries.lookup field.name entries = x at hrel
  generalize Entries.lookup field.name others = y at hrel
  cases hrel with
  | none => exact .absent _ _
  | some hv => exact .present _ _ hv

/-- The entries of a record ask the same of values that are equal up to the order of keys. -/
theorem Child.ofEntries_reordered {ordered others : List (String × Json)} (entry : Schema)
    (h : List.Forall₂ EntryReordered ordered others) :
    List.Forall₂ Child.Reordered (Child.ofEntries entry ordered)
      (Child.ofEntries entry others) := by
  rw [Child.ofEntries, Child.ofEntries, List.forall₂_map_left_iff, List.forall₂_map_right_iff]
  refine h.imp fun e f he => ?_
  obtain ⟨k, value⟩ := e
  obtain ⟨k', value'⟩ := f
  obtain ⟨rfl, hv⟩ := he
  exact .present _ _ hv

/-- So do the items of a list. -/
theorem Child.ofItems_reordered {items others : List Json} (element : Schema) (position : Nat)
    (h : List.Forall₂ Json.Reordered items others) :
    List.Forall₂ Child.Reordered (Child.ofItems element position items)
      (Child.ofItems element position others) := by
  induction h generalizing position with
  | nil => exact .nil
  | cons hx _ ih => exact .cons (.present _ _ hx) (ih (position + 1))

/-- Named outputs that are equal up to the order of keys, one by one. -/
theorem nameOutputs_reordered {outputs others : List (Option Json)} (names : List String)
    (h : List.Forall₂ (Option.Rel Json.Reordered) outputs others) :
    List.Forall₂ EntryReordered (nameOutputs names outputs) (nameOutputs names others) := by
  induction h generalizing names with
  | nil =>
    rw [nameOutputs_nil]
    exact .nil
  | cons ho _ ih =>
    cases names with
    | nil => exact .nil
    | cons name rest =>
      cases ho with
      | none =>
        rw [nameOutputs_cons_none, nameOutputs_cons_none]
        exact ih rest
      | some hr =>
        rw [nameOutputs_cons_some, nameOutputs_cons_some]
        exact .cons ⟨rfl, hr⟩ (ih rest)

end Conformance
