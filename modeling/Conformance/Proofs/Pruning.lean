import Conformance.Proofs.Idempotence

/-!
# What the strict policy leaves of a value

Under the strict policy an output is a pruning of the value: it has lost keys of objects
and nothing else. Scalars are the very same, lists keep their items one by one, and an
object has no keys but those of the value. The merging of outputs keeps this, because a
merged object takes each of its entries from one of the outputs.
-/

namespace Conformance

namespace Json

/-- An output that is the value with keys of objects left out. -/
inductive PrunedTo : Json → Json → Prop
  /-- Null and scalars are kept as they are. -/
  | scalar {value : Json} (h : value.nesting = 0) : PrunedTo value value
  /-- A list keeps its length, and its items are pruned each in its place. -/
  | array {items outs : List Json} (hlength : items.length = outs.length)
    (h : ∀ (i : Nat) (item out : Json), items[i]? = some item → outs[i]? = some out →
      PrunedTo item out) : PrunedTo (.array items) (.array outs)
  /-- An object keeps some of its keys, and under each of them its value is pruned. -/
  | object {entries kept : List (String × Json)}
    (hkeys : ∀ entry ∈ kept, (Json.object entries).HasKey entry.1)
    (h : ∀ entry ∈ kept, ∀ item, Entries.lookup entry.1 entries = some item →
      PrunedTo item entry.2) : PrunedTo (.object entries) (.object kept)

/-- A value is pruned to itself. -/
theorem PrunedTo.refl {value : Json} (h : value.DistinctKeys) : value.PrunedTo value := by
  induction h with
  | null | bool | number | string => exact .scalar (by simp [nesting])
  | array _ ih =>
    refine .array rfl fun i item out hi ho => ?_
    cases hi.symm.trans ho
    exact ih item (List.mem_of_getElem? hi)
  | object hkeys _ ih =>
    refine .object (fun entry he => ?_) fun entry he item hl => ?_
    · exact Option.isSome_iff_exists.mpr ⟨_, Entries.lookup_of_mem hkeys he⟩
    · cases hl.symm.trans (Entries.lookup_of_mem hkeys he)
      exact ih entry he

/-- Objects are pruned entry by entry. -/
theorem PrunedTo.of_entries {entries kept : List (String × Json)}
    (h : ∀ entry ∈ kept, ∃ item, Entries.lookup entry.1 entries = some item ∧
      item.PrunedTo entry.2) : (Json.object entries).PrunedTo (.object kept) := by
  refine .object (fun entry he => ?_) fun entry he item hl => ?_
  · obtain ⟨item, hl, _⟩ := h entry he
    exact Option.isSome_iff_exists.mpr ⟨item, hl⟩
  · obtain ⟨other, ho, hp⟩ := h entry he
    cases hl.symm.trans ho
    exact hp

/-- Every entry that an object is pruned to has its counterpart. -/
theorem PrunedTo.entry {entries kept : List (String × Json)}
    (h : (Json.object entries).PrunedTo (.object kept)) {entry : String × Json}
    (he : entry ∈ kept) :
    ∃ item, Entries.lookup entry.1 entries = some item ∧ item.PrunedTo entry.2 := by
  cases h with
  | scalar h => simp [nesting] at h
  | object hkeys h =>
    obtain ⟨item, hl⟩ := Option.isSome_iff_exists.mp (hkeys entry he)
    exact ⟨item, hl, h entry he item hl⟩

/-- Only an object is pruned to an object. -/
theorem PrunedTo.exists_object {value : Json} {kept : List (String × Json)}
    (h : value.PrunedTo (.object kept)) : ∃ entries, value = .object entries := by
  cases h with
  | scalar h => simp [nesting] at h
  | object => exact ⟨_, rfl⟩

end Json

/-- Every entry of a merged row is one of the two rows that went into it. -/
theorem mem_of_mergeEntries {merged addition result : List (String × Json)}
    (h : mergeEntries merged addition = .ok result) {entry : String × Json}
    (he : entry ∈ result) : entry ∈ merged ∨ entry ∈ addition := by
  induction addition generalizing merged with
  | nil =>
    cases h
    exact .inl he
  | cons first rest ih =>
    obtain ⟨key, value⟩ := first
    rw [mergeEntries] at h
    split at h
    · split at h
      · exact (ih h).imp_right (List.mem_cons_of_mem _)
      · cases h
    · rcases ih h with hm | hr
      · rcases List.mem_append.mp hm with hm | hm
        · exact .inl hm
        · rw [List.mem_singleton.mp hm]
          exact .inr List.mem_cons_self
      · exact .inr (List.mem_cons_of_mem _ hr)

/-- What two prunings of a value are merged into is a pruning of it. -/
theorem prunedTo_mergeOutputs (value : Json) {previous next output : Json}
    (hp : value.PrunedTo previous) (hn : value.PrunedTo next)
    (h : mergeOutputs previous next = .ok output) : value.PrunedTo output := by
  rcases mergeOutputs_cases h with ⟨merged, addition, result, rfl, rfl, rfl, hm⟩ | ⟨_, _, rfl⟩
  · obtain ⟨entries, rfl⟩ := hp.exists_object
    refine .of_entries fun entry he => ?_
    rcases mem_of_mergeEntries hm he with he | he
    · exact hp.entry he
    · exact hn.entry he
  · exact hp

/-- A named output comes from something of this name. -/
theorem exists_of_mem_nameOutputs {α : Type} {R : α → Option Json → Prop} {name : α → String}
    {row : List α} {outputs : List (Option Json)} (h : List.Forall₂ R row outputs)
    {entry : String × Json} (he : entry ∈ nameOutputs (row.map name) outputs) :
    ∃ x ∈ row, name x = entry.1 ∧ R x (some entry.2) := by
  obtain ⟨⟨n, output⟩, hm, hout⟩ := List.mem_filterMap.mp he
  obtain ⟨w, rfl, rfl⟩ := Option.map_eq_some_iff.mp hout
  rw [List.zip_map_left] at hm
  obtain ⟨⟨x, output⟩, hx, heq⟩ := List.mem_map.mp hm
  cases heq
  exact ⟨x, (List.of_mem_zip hx).1, rfl, (List.forall₂_iff_zip.mp h).2 hx⟩

/-- A policy that gives every value that it accepts as it is. -/
def Policy.Unchanging (policy : Policy) : Prop :=
  ∀ leaf value output, policy.check leaf value = .ok output → value.nesting = 0 ∧ output = value

/-- The strict policy is such a policy. -/
theorem Policy.strict_unchanging : strict.Unchanging := by
  intro leaf value output h
  obtain ⟨hscalar, _, _⟩ := strict_settling leaf value output h
  refine ⟨?_, strict_unchanged leaf h⟩
  cases value with
  | bool | number | string => simp [Json.nesting]
  | null | array | object => cases hscalar

/-- What is said of an accepted value with distinct keys: it is pruned to the output. -/
def pruning : Grounds.Motive := fun _ value _ _ output =>
  value.DistinctKeys → value.PrunedTo output

section Steps

variable {grounds : Grounds} {depth : Nat}

/-- The outputs of the items of a list are a pruning of it. -/
theorem pruning_items {element : Schema} {items : List Json} {outputs : List (Option Json)}
    (hrow : List.Forall₂ (Grounds.ChildOutput grounds pruning depth)
      (Child.ofItems element 0 items) outputs) (hd : (Json.array items).DistinctKeys) :
    (Json.array items).PrunedTo (.array (outputs.filterMap fun output => output)) := by
  obtain ⟨outs, rfl, houts⟩ := Grounds.items_outputs hrow
  have houtput : (outs.map some).filterMap (fun output => output) = outs := by simp
  rw [houtput]
  refine .array houts.length_eq fun i item out hi ho => ?_
  obtain ⟨other, hother, _, ih⟩ := exists_of_forall₂_of_getElem? houts hi
  cases ho.symm.trans hother
  exact ih (hd.item (List.mem_of_getElem? hi))

/-- The outputs of the entries of a record are a pruning of it. -/
theorem pruning_entries {entry : Schema} {entries : List (String × Json)}
    {outputs : List (Option Json)}
    (hrow : List.Forall₂ (Grounds.ChildOutput grounds pruning depth)
      (Child.ofEntries entry entries) outputs) (hd : (Json.object entries).DistinctKeys) :
    (Json.object entries).PrunedTo (.object (nameOutputs (entries.map Prod.fst) outputs)) := by
  refine .of_entries fun e he => ?_
  obtain ⟨⟨key, value⟩, hm, rfl, hout⟩ :=
    exists_of_mem_nameOutputs (List.forall₂_map_left_iff.mp hrow) he
  refine ⟨value, Entries.lookup_of_mem hd.keys hm, ?_⟩
  cases hout with
  | present _ ih => exact ih (hd.entry hm)

/-- The outputs of declared fields are a pruning of the object. -/
theorem pruning_fields {fields : List (Field Schema)} {entries : List (String × Json)}
    {outputs : List (Option Json)}
    (hrow : List.Forall₂ (Grounds.ChildOutput grounds pruning depth)
      (fields.map (Child.ofField entries)) outputs) (hd : (Json.object entries).DistinctKeys) :
    (Json.object entries).PrunedTo (.object (nameOutputs (fields.map Field.name) outputs)) := by
  refine .of_entries fun e he => ?_
  obtain ⟨field, _, hname, hout⟩ :=
    exists_of_mem_nameOutputs (List.forall₂_map_left_iff.mp hrow) he
  rw [← hname]
  cases hl : Entries.lookup field.name entries with
  | some value =>
    rw [Child.ofField, hl] at hout
    cases hout with
    | present _ ih => exact ⟨value, rfl, ih (hd.lookup hl)⟩
  | none =>
    rw [Child.ofField, hl] at hout
    cases hout

end Steps

theorem pruning_inductive {grounds : Grounds} (hpolicy : grounds.policy.Unchanging) :
    grounds.Inductive pruning where
  leaf leaf value depth entered output h _ := by
    obtain ⟨hscalar, rfl⟩ := hpolicy leaf value output h
    exact .scalar hscalar
  null inner depth entered hd := .refl hd
  nullable inner value depth entered output _ _ ih := ih
  union before member after value depth entered output _ _ ih := ih
  intersection members outputs all value depth entered hrow hall hd := by
    cases all with
    | none => exact .refl hd
    | some m =>
      refine mergeAll_forall (fun a b m => prunedTo_mergeOutputs value) (fun a ha => by cases ha)
        ?_ hall m rfl
      intro w hw
      obtain ⟨_, _, _, ih⟩ := exists_of_forall₂_of_mem hrow.flip hw
      exact ih hd
  reference r target value depth entered output _ _ _ ih := ih
  any value depth entered hd := .refl hd
  scalar value depth entered h _ := .scalar h
  container schema value depth entered children assemble outputs hc _ hrow hd := by
    cases hc with
    | items => exact pruning_items hrow hd
    | entries => exact pruning_entries hrow hd
    | fields => exact pruning_fields hrow hd

/-- Strict validation only prunes. -/
theorem strict_output_prunes (schema : Schema) (mode : Mode) (maxDepth : Nat) (session : Session)
    (value output : Json) (hkeys : value.DistinctKeys)
    (h : ((Validator.ofSettings schema ⟨.strict, mode, maxDepth⟩).validate value session).1 =
      .ok output) : value.PrunedTo output := by
  have haccept := (Validator.validate_eq_ok_iff _ value output session).mp h
  exact (pruning_inductive Policy.strict_unchanging).holds schema value 0 [] output haccept hkeys

/-- A node with a number and perhaps a further node. -/
def chainNode : Schema :=
  .struct [⟨"v", .leaf .number, none, false⟩,
    ⟨"next", .nullable (.reference ⟨0, .back⟩), none, false⟩]

/-- A node, with a tag that is a number or a text. -/
def taggedChain : Schema :=
  .intersection [.reference ⟨0, .owner⟩,
    .struct [⟨"tag", .union [.leaf .number, .leaf .string], none, false⟩]]

/-- A session in which the definition of a node is complete. -/
def chainSession : Session := ⟨Store.empty.setCell 0 (.filled chainNode), #[]⟩

/-- Keys that no member declares are lost on all levels, and what is kept is merged. -/
theorem taggedChain_prunes :
    (Json.object [("v", .number (.int 1 rfl)), ("note", .null), ("tag", .string "10"),
        ("next", .object [("w", .null), ("v", .number (.int 2 rfl))])]).PrunedTo
      (.object [("v", .number (.int 1 rfl)), ("next", .object [("v", .number (.int 2 rfl))]),
        ("tag", .string "10")]) := by
  refine strict_output_prunes taggedChain .collectAll 2 chainSession _ _ ?_
    ((Validator.validate_eq_ok_iff _ _ _ _).mpr (by cbv))
  refine .object (by decide) fun entry he => ?_
  simp only [List.mem_cons, List.not_mem_nil, or_false] at he
  rcases he with rfl | rfl | rfl | rfl
  · exact .number _
  · exact .null
  · exact .string _
  · refine .object (by decide) fun entry he => ?_
    simp only [List.mem_cons, List.not_mem_nil, or_false] at he
    rcases he with rfl | rfl
    · exact .null
    · exact .number _

end Conformance
