import Conformance.Proofs.Merging

/-!
# Outputs put together from children

The outputs of the items of a list are a list, and those of entries and of declared
fields are found under their names. So an output has distinct keys if the value has,
and outputs that are equal data child by child are equal data as a whole.
-/

namespace Conformance

/-- The outputs of entries are found where the entries are. -/
theorem lookup_nameOutputs_entries {P : String × Json → Json → Prop}
    {row : List (String × Json)} {outputs : List Json} (h : List.Forall₂ P row outputs)
    (key : String) :
    Option.Rel (fun value output => P (key, value) output) (Entries.lookup key row)
      (Entries.lookup key (nameOutputs (row.map Prod.fst) (outputs.map some))) := by
  induction h with
  | nil => exact .none
  | @cons entry output rest outputs hentry _ ih =>
    obtain ⟨k, value⟩ := entry
    rw [List.map_cons, List.map_cons, nameOutputs_cons_some, Entries.lookup, Entries.lookup]
    by_cases hk : k = key
    · subst hk
      rw [if_pos rfl, if_pos rfl]
      exact .some hentry
    · rw [if_neg hk, if_neg hk]
      exact ih

/-- Under distinct names every output is found under its own name. -/
theorem lookup_nameOutputs {names : List String} {outputs : List (Option Json)}
    (hd : names.Nodup) (hlength : names.length = outputs.length) :
    List.Forall₂ (fun name output => Entries.lookup name (nameOutputs names outputs) = output)
      names outputs := by
  induction names generalizing outputs with
  | nil =>
    cases outputs with
    | nil => exact .nil
    | cons => cases hlength
  | cons name rest ih =>
    cases outputs with
    | nil => cases hlength
    | cons output others =>
      obtain ⟨hname, hrest⟩ := List.nodup_cons.mp hd
      have hothers := ih hrest (Nat.succ.inj hlength)
      have hmissing : Entries.lookup name (nameOutputs rest others) = none :=
        Entries.lookup_eq_none_iff.mpr fun hm => hname ((nameOutputs_keys_sublist _ _).subset hm)
      cases output with
      | none =>
        rw [nameOutputs_cons_none]
        exact .cons hmissing hothers
      | some w =>
        rw [nameOutputs_cons_some]
        refine .cons (by rw [Entries.lookup, if_pos rfl]) ?_
        refine forall₂_imp_of_mem hothers fun n hn output _ heq => ?_
        have hne : name ≠ n := fun h => hname (h ▸ hn)
        rw [Entries.lookup, if_neg hne, heq]

/-- Outputs that are related under the same names are related name by name. -/
theorem rel_lookup_nameOutputs {R : Json → Json → Prop} {names : List String}
    {outputs others : List (Option Json)} (h : List.Forall₂ (Option.Rel R) outputs others)
    (key : String) :
    Option.Rel R (Entries.lookup key (nameOutputs names outputs))
      (Entries.lookup key (nameOutputs names others)) := by
  induction h generalizing names with
  | nil =>
    rw [nameOutputs_nil]
    exact .none
  | cons ho _ ih =>
    cases names with
    | nil => exact .none
    | cons name rest =>
      cases ho with
      | none =>
        rw [nameOutputs_cons_none, nameOutputs_cons_none]
        exact ih
      | some hr =>
        rw [nameOutputs_cons_some, nameOutputs_cons_some, Entries.lookup, Entries.lookup]
        split
        · exact .some hr
        · exact ih

/-- A named output is one of the outputs. -/
theorem mem_of_mem_nameOutputs {names : List String} {outputs : List (Option Json)}
    {entry : String × Json} (h : entry ∈ nameOutputs names outputs) : some entry.2 ∈ outputs := by
  obtain ⟨⟨name, output⟩, hm, heq⟩ := List.mem_filterMap.mp h
  obtain ⟨w, hw, rfl⟩ := Option.map_eq_some_iff.mp heq
  rw [← show output = some w from hw]
  exact (List.of_mem_zip hm).2

namespace Grounds

variable {grounds : Grounds} {motive : Motive} {schema : Schema} {depth : Nat}
  {entered : List CellId}

/-- Every item of an accepted list has an output. -/
theorem items_outputs {element : Schema} {items : List Json} {position : Nat}
    {outputs : List (Option Json)}
    (h : List.Forall₂ (ChildOutput grounds motive depth) (Child.ofItems element position items)
      outputs) :
    ∃ outs : List Json, outputs = outs.map some ∧
      List.Forall₂ (fun item w => grounds.accept element item (depth + 1) [] = some w ∧
        motive element item (depth + 1) [] w) items outs := by
  have hitems := Child.forall₂_of_ofItems (S := fun item output => ∃ w : Json,
    (grounds.accept element item (depth + 1) [] = some w ∧
      motive element item (depth + 1) [] w) ∧ output = some w) h ?_
  · obtain ⟨outs, hp, hq⟩ := exists_between_of_forall₂ hitems
    exact ⟨outs, eq_map_some_of_forall₂ hq, hp⟩
  · intro segment item output ho
    cases ho with
    | present ha hm => exact ⟨_, ⟨ha, hm⟩, rfl⟩

/-- Every entry of an accepted record has an output. -/
theorem entries_outputs {entry : Schema} {entries : List (String × Json)}
    {outputs : List (Option Json)}
    (h : List.Forall₂ (ChildOutput grounds motive depth) (Child.ofEntries entry entries) outputs) :
    ∃ outs : List Json, outputs = outs.map some ∧
      List.Forall₂ (fun e w => grounds.accept entry e.2 (depth + 1) [] = some w ∧
        motive entry e.2 (depth + 1) [] w) entries outs := by
  have hentries := (List.forall₂_map_left_iff.mp h).imp (S := fun e output => ∃ w : Json,
    (grounds.accept entry e.2 (depth + 1) [] = some w ∧
      motive entry e.2 (depth + 1) [] w) ∧ output = some w) ?_
  · obtain ⟨outs, hp, hq⟩ := exists_between_of_forall₂ hentries
    exact ⟨outs, eq_map_some_of_forall₂ hq, hp⟩
  · intro e output ho
    cases ho with
    | present ha hm => exact ⟨_, ⟨ha, hm⟩, rfl⟩

/-- A list whose items are accepted is accepted, with their outputs. -/
theorem accept_items {element : Schema} {items outs : List Json}
    (he : schema.itemSchema? = some element) (hd : depth < grounds.maxDepth)
    (h : List.Forall₂ (fun item w => grounds.accept element item (depth + 1) [] = some w)
      items outs) :
    grounds.accept schema (.array items) depth entered = some (.array outs) := by
  have hrow : List.Forall₂ (fun child output => grounds.acceptChild child depth = some output)
      (Child.ofItems element 0 items) (outs.map some) := by
    rw [List.forall₂_map_right_iff]
    refine Child.ofItems_forall₂ h fun segment item w hw => ?_
    rw [acceptChild, hw, Option.map_some]
  rw [accept_container grounds depth entered (.items he), if_neg (by omega),
    acceptChildren_eq_some.mpr hrow, Option.map_some]
  simp

/-- A record whose entries are accepted is accepted, with their outputs. -/
theorem accept_entries {entry : Schema} {entries : List (String × Json)} {outs : List Json}
    (he : schema.entrySchema? = some entry) (hd : depth < grounds.maxDepth)
    (h : List.Forall₂ (fun e w => grounds.accept entry e.2 (depth + 1) [] = some w)
      entries outs) :
    grounds.accept schema (.object entries) depth entered =
      some (.object (nameOutputs (entries.map Prod.fst) (outs.map some))) := by
  have hrow : List.Forall₂ (fun child output => grounds.acceptChild child depth = some output)
      (Child.ofEntries entry entries) (outs.map some) := by
    rw [List.forall₂_map_right_iff, Child.ofEntries, List.forall₂_map_left_iff]
    refine h.imp fun e w hw => ?_
    rw [acceptChild, hw, Option.map_some]
  rw [accept_container grounds depth entered (.entries he), if_neg (by omega),
    acceptChildren_eq_some.mpr hrow, Option.map_some]

/-- An object whose declared fields are accepted is accepted, with their outputs. -/
theorem accept_fields {fields : List (Field Schema)} {entries : List (String × Json)}
    {outputs : List (Option Json)} (hf : schema.fields? = some fields)
    (hd : depth < grounds.maxDepth)
    (h : List.Forall₂ (fun field output =>
      grounds.acceptChild (Child.ofField entries field) depth = some output) fields outputs) :
    grounds.accept schema (.object entries) depth entered =
      some (.object (nameOutputs (fields.map Field.name) outputs)) := by
  rw [accept_container grounds depth entered (.fields hf), if_neg (by omega),
    acceptChildren_eq_some.mpr (List.forall₂_map_left_iff.mpr h), Option.map_some]

end Grounds

end Conformance
