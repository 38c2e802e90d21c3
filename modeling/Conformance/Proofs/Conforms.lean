import Mathlib.Data.List.Perm.Subperm
import Conformance.Proofs.Outputs

/-!
# Conforming values

What it means for a value to conform to a schema is the least relation closed
under one rule for each kind of schema. The check follows no reference twice
at one node, so it finds only derivations without such a repetition; every
derivation can be cut down to one of these, and as long as the graph has no
more cells than references may be followed, the check accepts exactly the
values that conform. Intersections, whose outputs have to agree, are left out.
-/

namespace Conformance

/-- A value conforms to a schema. -/
inductive Conforms (policy : Policy) (store : Store) : Schema → Json → Prop
  /-- A leaf is met by what the policy accepts. -/
  | leaf {leaf : Leaf} {value output : Json} (h : policy.check leaf value = .ok output) :
    Conforms policy store (.leaf leaf) value
  /-- A nullable schema is met by null. -/
  | null {inner : Schema} : Conforms policy store (.nullable inner) .null
  /-- A nullable schema is met by what conforms to the inner one. -/
  | nullable {inner : Schema} {value : Json} (h : Conforms policy store inner value) :
    Conforms policy store (.nullable inner) value
  /-- A list is met when every item conforms. -/
  | list {element : Schema} {items : List Json}
    (h : ∀ item ∈ items, Conforms policy store element item) :
    Conforms policy store (.list element) (.array items)
  /-- A record is met when the value of every entry conforms. -/
  | record {entry : Schema} {entries : List (String × Json)}
    (h : ∀ e ∈ entries, Conforms policy store entry e.2) :
    Conforms policy store (.record entry) (.object entries)
  /-- Declared fields are met when each is present and conforms, or is absent and may
  be. -/
  | fields {schema : Schema} {fields : List (Field Schema)} {entries : List (String × Json)}
    (hf : schema.fields? = some fields)
    (hpresent : ∀ field ∈ fields, ∀ value, Entries.lookup field.name entries = some value →
      Conforms policy store field.schema value)
    (habsent : ∀ field ∈ fields, Entries.lookup field.name entries = none →
      (field.schema.acceptsAbsent store).1 = true) :
    Conforms policy store schema (.object entries)
  /-- A union is met by what conforms to some member. -/
  | union {members : List Schema} {member : Schema} {value : Json} (hm : member ∈ members)
    (h : Conforms policy store member value) : Conforms policy store (.union members) value
  /-- Every value is JSON. -/
  | json {value : Json} : Conforms policy store .json value
  /-- Every value is something. -/
  | any {value : Json} : Conforms policy store .any value
  /-- A reference is met by what conforms to the schema that it leads to. -/
  | reference {r : Reference} {target : Schema} {value : Json}
    (ht : store.target? r.cell = some target) (h : Conforms policy store target value) :
    Conforms policy store (.reference r) value

/-- A value conforms by a derivation that follows no reference twice at one node, nor
any through the cells to avoid. -/
inductive ConformsAvoiding (policy : Policy) (store : Store) :
    List CellId → Schema → Json → Prop
  | leaf {avoided : List CellId} {leaf : Leaf} {value output : Json}
    (h : policy.check leaf value = .ok output) :
    ConformsAvoiding policy store avoided (.leaf leaf) value
  | null {avoided : List CellId} {inner : Schema} :
    ConformsAvoiding policy store avoided (.nullable inner) .null
  | nullable {avoided : List CellId} {inner : Schema} {value : Json}
    (h : ConformsAvoiding policy store avoided inner value) :
    ConformsAvoiding policy store avoided (.nullable inner) value
  | list {avoided : List CellId} {element : Schema} {items : List Json}
    (h : ∀ item ∈ items, ConformsAvoiding policy store [] element item) :
    ConformsAvoiding policy store avoided (.list element) (.array items)
  | record {avoided : List CellId} {entry : Schema} {entries : List (String × Json)}
    (h : ∀ e ∈ entries, ConformsAvoiding policy store [] entry e.2) :
    ConformsAvoiding policy store avoided (.record entry) (.object entries)
  | fields {avoided : List CellId} {schema : Schema} {fields : List (Field Schema)}
    {entries : List (String × Json)} (hf : schema.fields? = some fields)
    (hpresent : ∀ field ∈ fields, ∀ value, Entries.lookup field.name entries = some value →
      ConformsAvoiding policy store [] field.schema value)
    (habsent : ∀ field ∈ fields, Entries.lookup field.name entries = none →
      (field.schema.acceptsAbsent store).1 = true) :
    ConformsAvoiding policy store avoided schema (.object entries)
  | union {avoided : List CellId} {members : List Schema} {member : Schema} {value : Json}
    (hm : member ∈ members) (h : ConformsAvoiding policy store avoided member value) :
    ConformsAvoiding policy store avoided (.union members) value
  | json {avoided : List CellId} {value : Json} :
    ConformsAvoiding policy store avoided .json value
  | any {avoided : List CellId} {value : Json} : ConformsAvoiding policy store avoided .any value
  | reference {avoided : List CellId} {r : Reference} {target : Schema} {value : Json}
    (ha : r.cell ∉ avoided) (ht : store.target? r.cell = some target)
    (h : ConformsAvoiding policy store (r.cell :: avoided) target value) :
    ConformsAvoiding policy store avoided (.reference r) value

variable {policy : Policy} {store : Store}

/-- With fewer cells to avoid, more conforms. -/
theorem ConformsAvoiding.mono {avoided fewer : List CellId} {schema : Schema} {value : Json}
    (h : ConformsAvoiding policy store avoided schema value) (hsub : fewer ⊆ avoided) :
    ConformsAvoiding policy store fewer schema value := by
  induction h generalizing fewer with
  | leaf h => exact .leaf h
  | null => exact .null
  | nullable _ ih => exact .nullable (ih hsub)
  | list h => exact .list h
  | record h => exact .record h
  | fields hf hp ha => exact .fields hf hp ha
  | union hm _ ih => exact .union hm (ih hsub)
  | json => exact .json
  | any => exact .any
  | reference ha ht _ ih =>
    exact .reference (fun hc => ha (hsub hc)) ht (ih (List.cons_subset_cons _ hsub))

/-- A derivation either avoids one more cell already, or has inside it, at the same
node, a derivation for what that cell leads to. -/
theorem ConformsAvoiding.cut {avoided : List CellId} {schema : Schema} {value : Json}
    (h : ConformsAvoiding policy store avoided schema value) {cell : CellId} {target : Schema}
    (ht : store.target? cell = some target) :
    ConformsAvoiding policy store (cell :: avoided) schema value ∨
      ConformsAvoiding policy store (cell :: avoided) target value := by
  induction h with
  | leaf h => exact .inl (.leaf h)
  | null => exact .inl .null
  | nullable _ ih => exact ih.imp_left .nullable
  | list h => exact .inl (.list h)
  | record h => exact .inl (.record h)
  | fields hf hp ha => exact .inl (.fields hf hp ha)
  | union hm _ ih => exact ih.imp_left (.union hm)
  | json => exact .inl .json
  | any => exact .inl .any
  | @reference avoided r inner value ha hr h ih =>
    by_cases hcell : r.cell = cell
    · subst hcell
      cases ht.symm.trans hr
      exact .inr h
    · rcases ih with ih | ih
      · have hout : r.cell ∉ cell :: avoided := by simp [hcell, ha]
        exact .inl (.reference hout hr (ih.mono (List.Perm.swap cell r.cell avoided).subset))
      · exact .inr (ih.mono (List.cons_subset_cons _ (List.subset_cons_self _ _)))

/-- Whatever conforms does so by a derivation without repetition: where a reference is
followed, the part below is cut at the last time that it is. -/
theorem Conforms.avoiding {schema : Schema} {value : Json}
    (h : Conforms policy store schema value) :
    ConformsAvoiding policy store [] schema value := by
  induction h with
  | leaf h => exact .leaf h
  | null => exact .null
  | nullable _ ih => exact .nullable ih
  | list _ ih => exact .list ih
  | record _ ih => exact .record ih
  | fields hf _ ha ih => exact .fields hf ih ha
  | union hm _ ih => exact .union hm ih
  | json => exact .json
  | any => exact .any
  | reference ht _ ih => exact .reference List.not_mem_nil ht ((ih.cut ht).elim id id)

/-- No intersection occurs in the graph of a schema. -/
def Schema.IntersectionFree (targets : Targets) (root : Schema) : Prop :=
  ∀ members, ¬Schema.Reaches targets root (.intersection members)

/-- The references in the graph of a schema lead through at most so many cells. -/
def Schema.CellsAtMost (targets : Targets) (root : Schema) (bound : Nat) : Prop :=
  ∃ cells : List CellId, cells.length ≤ bound ∧
    ∀ r, Schema.Reaches targets root (.reference r) → r.cell ∈ cells

/-- What is said of an accepted value: it conforms, if the schema is part of the
graph. -/
def soundness (policy : Policy) (store : Store) (root : Schema) : Grounds.Motive :=
  fun schema value _ _ _ =>
    Schema.Reaches store.target? root schema → Conforms policy store schema value

theorem soundness_inductive {root : Schema} {maxDepth : Nat}
    (hfree : root.IntersectionFree store.target?) :
    Grounds.Inductive ⟨policy, maxDepth, store.target?⟩ (soundness policy store root) where
  leaf leaf value depth entered output h _ := .leaf h
  null inner depth entered _ := .null
  nullable inner value depth entered output hnull h ih hr :=
    .nullable (ih (hr.part (List.mem_singleton_self _)))
  union before member after value depth entered output _ _ ih hr := by
    have hm : member ∈ before ++ member :: after := by simp
    exact .union hm (ih (hr.part hm))
  intersection members outputs all value depth entered _ _ hr := absurd hr (hfree members)
  reference r target value depth entered output _ ht _ ih hr := .reference ht (ih (hr.target ht))
  any value depth entered _ := .any
  scalar value depth entered _ _ := .json
  container schema value depth entered children assemble outputs hc _ hrow hr := by
    have hchild : ∀ segment inner item, Child.present segment inner item ∈ children →
        Conforms policy store inner item := by
      intro segment inner item hm
      obtain ⟨_, _, hout⟩ := exists_of_forall₂_of_mem hrow hm
      cases hout with
      | present _ ih => exact ih (hr.child hc hm)
    cases hc with
    | @items element items he =>
      have hitems : ∀ item ∈ items, Conforms policy store element item := by
        intro item hi
        obtain ⟨segment, hm⟩ := Child.exists_mem_ofItems element hi
        exact hchild segment element item hm
      cases schema with
      | list => cases he; exact .list hitems
      | json => exact .json
      | _ => cases he
    | @entries entry entries he =>
      have hentries : ∀ e ∈ entries, Conforms policy store entry e.2 := by
        intro e hm
        exact hchild (.key e.1) entry e.2 (List.mem_map_of_mem hm)
      cases schema with
      | record => cases he; exact .record hentries
      | json => exact .json
      | _ => cases he
    | @fields fields entries hf =>
      refine .fields hf ?_ ?_
      · intro field hm value hl
        have hmem := List.mem_map_of_mem (f := Child.ofField entries) hm
        rw [Child.ofField, hl] at hmem
        exact hchild _ _ _ hmem
      · intro field hm hl
        have hmem := List.mem_map_of_mem (f := Child.ofField entries) hm
        rw [Child.ofField, hl] at hmem
        obtain ⟨_, _, hout⟩ := exists_of_forall₂_of_mem hrow hmem
        cases hout with
        | absent ha => rw [Schema.acceptsAbsent_fst]; exact ha

/-- Any value within the depth limit is accepted as JSON. -/
theorem Grounds.accept_json_isSome (grounds : Grounds) (value : Json) (depth : Nat)
    (entered : List CellId) (hd : value.nesting + depth ≤ grounds.maxDepth) :
    (grounds.accept .json value depth entered).isSome := by
  cases value with
  | array items =>
    have hc : Container .json (.array items) (Child.ofItems .json 0 items) _ := .items rfl
    have hpos := hc.nesting_pos
    refine accept_container_isSome hc (by omega) ?_
    intro child hm
    obtain ⟨segment, item, _, rfl⟩ := Child.exists_of_mem_ofItems hm
    have hlt : item.nesting < (Json.array items).nesting := hc.nesting_lt hm
    rw [acceptChild, Option.isSome_map]
    exact accept_json_isSome grounds item (depth + 1) [] (by omega)
  | object entries =>
    have hc : Container .json (.object entries) (Child.ofEntries .json entries) _ := .entries rfl
    have hpos := hc.nesting_pos
    refine accept_container_isSome hc (by omega) ?_
    intro child hm
    obtain ⟨entry, _, rfl⟩ := List.mem_map.mp hm
    have hlt : entry.2.nesting < (Json.object entries).nesting := hc.nesting_lt hm
    rw [acceptChild, Option.isSome_map]
    exact accept_json_isSome grounds entry.2 (depth + 1) [] (by omega)
  | null | bool | number | string =>
    rw [accept_structural grounds _ depth entered rfl]
    rfl
termination_by value.nesting

/-- Without intersections, and with no more cells than references may be followed, a
derivation that avoids the references being followed leads to acceptance. -/
theorem ConformsAvoiding.accept_isSome {root : Schema} {maxDepth : Nat} {cells : List CellId}
    (hlength : cells.length ≤ maxHops)
    (hcells : ∀ r, Schema.Reaches store.target? root (.reference r) → r.cell ∈ cells)
    {avoided : List CellId} {schema : Schema} {value : Json}
    (h : ConformsAvoiding policy store avoided schema value) {depth : Nat}
    (hd : value.nesting + depth ≤ maxDepth) (hr : Schema.Reaches store.target? root schema)
    (hnodup : avoided.Nodup) (hsub : avoided ⊆ cells) :
    (Grounds.accept ⟨policy, maxDepth, store.target?⟩ schema value depth avoided).isSome := by
  induction h generalizing depth with
  | leaf h => simp [Grounds.accept, h, Except.toOption]
  | null => simp [Grounds.accept, Json.isNull]
  | @nullable avoided inner value _ ih =>
    rw [Grounds.accept]
    split
    · rfl
    · exact ih hd (hr.part (List.mem_singleton_self _)) hnodup hsub
  | @list avoided element items _ ih =>
    have hc : Container (.list element) (.array items) (Child.ofItems element 0 items) _ :=
      .items rfl
    have hroom : depth < maxDepth := by have := hc.nesting_pos; omega
    refine Grounds.accept_container_isSome hc hroom ?_
    intro child hm
    obtain ⟨segment, item, hi, rfl⟩ := Child.exists_of_mem_ofItems hm
    have hlt : item.nesting < (Json.array items).nesting := hc.nesting_lt hm
    rw [Grounds.acceptChild, Option.isSome_map]
    exact ih item hi (by omega) (hr.part (List.mem_singleton_self _)) List.nodup_nil
      (List.nil_subset _)
  | @record avoided element entries _ ih =>
    have hc : Container (.record element) (.object entries) (Child.ofEntries element entries) _ :=
      .entries rfl
    have hroom : depth < maxDepth := by have := hc.nesting_pos; omega
    refine Grounds.accept_container_isSome hc hroom ?_
    intro child hm
    obtain ⟨entry, he, rfl⟩ := List.mem_map.mp hm
    have hlt : entry.2.nesting < (Json.object entries).nesting := hc.nesting_lt hm
    rw [Grounds.acceptChild, Option.isSome_map]
    exact ih entry he (by omega) (hr.part (List.mem_singleton_self _)) List.nodup_nil
      (List.nil_subset _)
  | @fields avoided schema fields entries hf _ habsent ih =>
    have hc : Container schema (.object entries) (fields.map (Child.ofField entries)) _ :=
      .fields hf
    have hroom : depth < maxDepth := by have := hc.nesting_pos; omega
    refine Grounds.accept_container_isSome hc hroom ?_
    intro child hm
    have hlt := hc.nesting_lt hm
    obtain ⟨field, hfield, rfl⟩ := List.mem_map.mp hm
    cases hl : Entries.lookup field.name entries with
    | some value =>
      rw [Child.ofField, hl] at hlt ⊢
      have hvalue : value.nesting < (Json.object entries).nesting := hlt
      rw [Grounds.acceptChild, Option.isSome_map]
      exact ih field hfield value hl (by omega) (hr.field hf hfield) List.nodup_nil
        (List.nil_subset _)
    | none =>
      have ha := habsent field hfield hl
      rw [Schema.acceptsAbsent_fst] at ha
      rw [Child.ofField, hl, Grounds.acceptChild, if_pos ha]
      rfl
  | union hm _ ih => exact Grounds.accept_union_isSome hm (ih hd (hr.part hm) hnodup hsub)
  | json => exact Grounds.accept_json_isSome _ _ _ _ hd
  | any =>
    rw [Grounds.accept_structural _ _ _ _ rfl]
    rfl
  | @reference avoided r target value ha ht _ ih =>
    have hnodup' : (r.cell :: avoided).Nodup := List.nodup_cons.mpr ⟨ha, hnodup⟩
    have hsub' : r.cell :: avoided ⊆ cells := List.cons_subset.mpr ⟨hcells r hr, hsub⟩
    have hle := (List.subperm_of_subset hnodup' hsub').length_le
    rw [List.length_cons] at hle
    rw [Grounds.accept_reference _ _ _ ⟨by omega, ha⟩]
    change ((store.target? r.cell).bind _).isSome
    rw [ht]
    exact ih hd (hr.target ht) hnodup' hsub'

/-- Acceptance without intersections is exactly conformity: for every graph with no more
cells than references may be followed at one node, whether it is cyclic or not, and for
every value that nests within the limit. -/
theorem accepts_iff_conforms (validator : Validator) (session : Session) (value : Json)
    (hfree : validator.schema.IntersectionFree session.store.target?)
    (hcells : validator.schema.CellsAtMost session.store.target? maxHops)
    (hdepth : value.nesting ≤ validator.maxDepth) :
    (∃ output, (validator.validate value session).1 = .ok output) ↔
      Conforms validator.policy session.store validator.schema value := by
  simp only [Validator.validate_eq_ok_iff]
  constructor
  · rintro ⟨output, h⟩
    exact (soundness_inductive hfree).holds _ _ _ _ _ h .root
  · intro h
    obtain ⟨cells, hlength, hmem⟩ := hcells
    exact Option.isSome_iff_exists.mp
      (h.avoiding.accept_isSome hlength hmem (by omega) .root List.nodup_nil (List.nil_subset _))

/-- Numbers in lists nested in any way: the definition starts with a mention of
itself, which no container stands before. -/
def nestedNumbers : Schema :=
  .union [.reference ⟨0, .back⟩, .leaf .number, .list (.reference ⟨0, .back⟩)]

/-- A session in which that definition is complete. -/
def nestedNumbersSession : Session :=
  ⟨Store.empty.setCell 0 (.filled nestedNumbers), #[]⟩

/-- The graph of the definition is the definition, its members and nothing else. -/
theorem nestedNumbers_reaches {schema : Schema}
    (h : nestedNumbers.Reaches nestedNumbersSession.store.target? schema) :
    schema = nestedNumbers ∨ schema = .leaf .number ∨
      schema = .list (.reference ⟨0, .back⟩) ∨ schema = .reference ⟨0, .back⟩ := by
  refine h.mem_of_closed (P := fun schema => schema = nestedNumbers ∨ schema = .leaf .number ∨
    schema = .list (.reference ⟨0, .back⟩) ∨ schema = .reference ⟨0, .back⟩) (.inl rfl) ?_ ?_
  · rintro whole (rfl | rfl | rfl | rfl) part hp
    · simp only [nestedNumbers, Schema.parts, List.mem_cons, List.not_mem_nil, or_false] at hp
      rcases hp with rfl | rfl | rfl
      · exact .inr (.inr (.inr rfl))
      · exact .inr (.inl rfl)
      · exact .inr (.inr (.inl rfl))
    · cases hp
    · rw [List.mem_singleton.mp hp]
      exact .inr (.inr (.inr rfl))
    · cases hp
  · rintro r (h | h | h | h) target ht
    · cases h
    · cases h
    · cases h
    · cases h
      cases ht
      exact .inl rfl

/-- A list of a number and of a list conforms to the cyclic definition, so it is
accepted, though every node meets the definition again before any other member. -/
theorem nestedNumbers_accepts :
    ∃ output, (Validator.validate ⟨⟨.strict, .collectAll, 2⟩, nestedNumbers⟩
      (.array [.number (.int 1 rfl), .array [.number (.int 2 rfl)]])
      nestedNumbersSession).1 = .ok output := by
  have hnumber : ∀ n h, Conforms .strict nestedNumbersSession.store
      (.reference ⟨0, .back⟩) (.number (.int n h)) := fun n h =>
    .reference rfl (.union (List.mem_cons_of_mem _ List.mem_cons_self) (.leaf rfl))
  have hlist : ∀ items, (∀ item ∈ items, Conforms .strict nestedNumbersSession.store
      (.reference ⟨0, .back⟩) item) →
      Conforms .strict nestedNumbersSession.store nestedNumbers (.array items) :=
    fun items h => .union (List.mem_cons_of_mem _ (List.mem_cons_of_mem _ List.mem_cons_self)) (.list h)
  refine (accepts_iff_conforms ⟨⟨.strict, .collectAll, 2⟩, nestedNumbers⟩ nestedNumbersSession
    (.array [.number (.int 1 rfl), .array [.number (.int 2 rfl)]]) ?_ ?_ ?_).mpr ?_
  · intro members h
    rcases nestedNumbers_reaches h with h | h | h | h <;> cases h
  · refine ⟨[0], by decide, fun r h => ?_⟩
    rcases nestedNumbers_reaches h with h | h | h | h
    · cases h
    · cases h
    · cases h
    · cases h
      exact List.mem_singleton_self _
  · simp [Json.nesting, Json.nestingItems]
  · refine hlist _ fun item hi => ?_
    rcases List.mem_cons.mp hi with rfl | hi
    · exact hnumber 1 rfl
    · rw [List.mem_singleton.mp hi]
      refine .reference rfl (hlist _ fun item hi => ?_)
      rw [List.mem_singleton.mp hi]
      exact hnumber 2 rfl

end Conformance
