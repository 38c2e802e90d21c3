import Conformance.Proofs.Conforms

/-!
# Absence as a least relation

What it means for a schema to admit absence is the least relation closed under one rule for
each kind of schema that can. The question follows no reference that is being followed
already, so it finds only derivations without repetition. Every derivation can be cut down
to one of these, through unions and intersections alike, and as long as the graph has no
more cells than references may be followed, the answer is yes exactly for the schemas that
admit absence.
-/

namespace Conformance.Schema

/-- A schema admits absence in a graph. -/
inductive AdmitsAbsence (targets : Targets) : Schema → Prop
  /-- A nullable schema does. -/
  | nullable {inner : Schema} : AdmitsAbsence targets (.nullable inner)
  /-- The schema of all values does. -/
  | any : AdmitsAbsence targets .any
  /-- A union does if some member does. -/
  | union {members : List Schema} {member : Schema} (hm : member ∈ members)
    (h : AdmitsAbsence targets member) : AdmitsAbsence targets (.union members)
  /-- An intersection does if all members do. -/
  | intersection {members : List Schema} (h : ∀ member ∈ members, AdmitsAbsence targets member) :
    AdmitsAbsence targets (.intersection members)
  /-- A reference does if the schema that it leads to does. -/
  | reference {r : Reference} {target : Schema} (ht : targets r.cell = some target)
    (h : AdmitsAbsence targets target) : AdmitsAbsence targets (.reference r)

/-- A schema admits absence by a derivation that follows no reference inside itself, nor any
through the cells to avoid. -/
inductive AdmitsAbsenceAvoiding (targets : Targets) : List CellId → Schema → Prop
  | nullable {avoided : List CellId} {inner : Schema} :
    AdmitsAbsenceAvoiding targets avoided (.nullable inner)
  | any {avoided : List CellId} : AdmitsAbsenceAvoiding targets avoided .any
  | union {avoided : List CellId} {members : List Schema} {member : Schema}
    (hm : member ∈ members) (h : AdmitsAbsenceAvoiding targets avoided member) :
    AdmitsAbsenceAvoiding targets avoided (.union members)
  | intersection {avoided : List CellId} {members : List Schema}
    (h : ∀ member ∈ members, AdmitsAbsenceAvoiding targets avoided member) :
    AdmitsAbsenceAvoiding targets avoided (.intersection members)
  | reference {avoided : List CellId} {r : Reference} {target : Schema} (ha : r.cell ∉ avoided)
    (ht : targets r.cell = some target)
    (h : AdmitsAbsenceAvoiding targets (r.cell :: avoided) target) :
    AdmitsAbsenceAvoiding targets avoided (.reference r)

variable {targets : Targets}

/-- With fewer cells to avoid, more schemas admit absence. -/
theorem AdmitsAbsenceAvoiding.mono {avoided fewer : List CellId} {schema : Schema}
    (h : AdmitsAbsenceAvoiding targets avoided schema) (hsub : fewer ⊆ avoided) :
    AdmitsAbsenceAvoiding targets fewer schema := by
  induction h generalizing fewer with
  | nullable => exact .nullable
  | any => exact .any
  | union hm _ ih => exact .union hm (ih hsub)
  | intersection _ ih => exact .intersection fun member hm => ih member hm hsub
  | reference ha ht _ ih =>
    exact .reference (fun hc => ha (hsub hc)) ht (ih (List.cons_subset_cons _ hsub))

/-- A derivation either avoids one more cell already, or has inside it a derivation for what
that cell leads to. -/
theorem AdmitsAbsenceAvoiding.cut {avoided : List CellId} {schema : Schema}
    (h : AdmitsAbsenceAvoiding targets avoided schema) {cell : CellId} {target : Schema}
    (ht : targets cell = some target) :
    AdmitsAbsenceAvoiding targets (cell :: avoided) schema ∨
      AdmitsAbsenceAvoiding targets (cell :: avoided) target := by
  induction h with
  | nullable => exact .inl .nullable
  | any => exact .inl .any
  | union hm _ ih => exact ih.imp_left (.union hm)
  | @intersection avoided members _ ih =>
    -- one member that does not avoid the cell is enough to find what the cell leads to
    by_cases hall : ∀ member ∈ members, AdmitsAbsenceAvoiding targets (cell :: avoided) member
    · exact .inl (.intersection hall)
    · obtain ⟨member, hm, hnot⟩ : ∃ member ∈ members,
          ¬AdmitsAbsenceAvoiding targets (cell :: avoided) member := by
        simpa using hall
      exact .inr ((ih member hm).resolve_left hnot)
  | @reference avoided r inner ha hr h ih =>
    by_cases hcell : r.cell = cell
    · subst hcell
      cases ht.symm.trans hr
      exact .inr h
    · rcases ih with ih | ih
      · have hout : r.cell ∉ cell :: avoided := by simp [hcell, ha]
        exact .inl (.reference hout hr (ih.mono (List.Perm.swap cell r.cell avoided).subset))
      · exact .inr (ih.mono (List.cons_subset_cons _ (List.subset_cons_self _ _)))

/-- What admits absence does so by a derivation without repetition: where a reference is
followed, the part below is cut at the last time that it is. -/
theorem AdmitsAbsence.avoiding {schema : Schema} (h : AdmitsAbsence targets schema) :
    AdmitsAbsenceAvoiding targets [] schema := by
  induction h with
  | nullable => exact .nullable
  | any => exact .any
  | union hm _ ih => exact .union hm ih
  | intersection _ ih => exact .intersection ih
  | reference ht _ ih => exact .reference List.not_mem_nil ht ((ih.cut ht).elim id id)

/-- A search among members answers yes if the question does for one of them. -/
theorem anyAbsentWithin_iff (entered : List CellId) (members : List Schema) :
    anyAbsentWithin targets entered members = true ↔
      ∃ member ∈ members, absentWithin targets entered member = true := by
  induction members with
  | nil => simp [anyAbsentWithin]
  | cons member rest ih => simp [anyAbsentWithin, ih]

/-- A demand on all members is met if the question answers yes for each of them. -/
theorem allAbsentWithin_iff (entered : List CellId) (members : List Schema) :
    allAbsentWithin targets entered members = true ↔
      ∀ member ∈ members, absentWithin targets entered member = true := by
  induction members with
  | nil => simp [allAbsentWithin]
  | cons member rest ih => simp [allAbsentWithin, ih]

/-- In every function of the question the answer yes has a derivation. -/
def admitting (targets : Targets) : AbsenceWalk where
  ofSchema entered schema := absentWithin targets entered schema = true →
    AdmitsAbsence targets schema
  ofAny entered members := anyAbsentWithin targets entered members = true →
    ∃ member ∈ members, AdmitsAbsence targets member
  ofAll entered members := allAbsentWithin targets entered members = true →
    ∀ member ∈ members, AdmitsAbsence targets member

theorem admitting_inductive (targets : Targets) : (admitting targets).Inductive where
  nullable entered inner _ := .nullable
  any entered _ := .any
  union entered members ih h := by
    rw [absentWithin] at h
    obtain ⟨member, hm, hmember⟩ := ih h
    exact .union hm hmember
  intersection entered members ih h := by
    rw [absentWithin] at h
    exact .intersection (ih h)
  followed entered r henter ih h := by
    rw [absentWithin, if_pos henter] at h
    cases ht : targets r.cell with
    | none =>
      rw [ht] at h
      cases h
    | some target =>
      rw [ht] at h
      exact .reference ht (ih target h)
  blocked entered r henter h := by
    rw [absentWithin, if_neg henter] at h
    cases h
  value entered schema hvalue h := by
    rw [absentWithin_of_needsValue hvalue] at h
    cases h
  anyDone entered h := by
    rw [anyAbsentWithin] at h
    cases h
  anyMore entered member rest ihm ihr h := by
    rw [anyAbsentWithin, Bool.or_eq_true] at h
    rcases h with h | h
    · exact ⟨member, List.mem_cons_self, ihm h⟩
    · obtain ⟨other, hm, hother⟩ := ihr h
      exact ⟨other, List.mem_cons_of_mem _ hm, hother⟩
  allDone entered _ member hm := absurd hm List.not_mem_nil
  allMore entered member rest ihm ihr h := by
    rw [allAbsentWithin, Bool.and_eq_true] at h
    exact List.forall_mem_cons.mpr ⟨ihm h.1, ihr h.2⟩

/-- The answer yes is right in every graph, whichever references are being followed. -/
theorem admitsAbsence_of_absentWithin (entered : List CellId) (schema : Schema)
    (h : absentWithin targets entered schema = true) : AdmitsAbsence targets schema :=
  (admitting_inductive targets).holds entered schema h

/-- With no more cells than references may be followed, a derivation that avoids the
references being followed leads to the answer yes. -/
theorem AdmitsAbsenceAvoiding.absentWithin {root : Schema} {cells : List CellId}
    (hlength : cells.length ≤ maxHops)
    (hcells : ∀ r, Reaches targets root (.reference r) → r.cell ∈ cells)
    {avoided : List CellId} {schema : Schema} (h : AdmitsAbsenceAvoiding targets avoided schema)
    (hr : Reaches targets root schema) (hnodup : avoided.Nodup) (hsub : avoided ⊆ cells) :
    schema.absentWithin targets avoided = true := by
  induction h with
  | nullable => rw [Schema.absentWithin]
  | any => rw [Schema.absentWithin]
  | union hm _ ih =>
    rw [Schema.absentWithin, anyAbsentWithin_iff]
    exact ⟨_, hm, ih (hr.part hm) hnodup hsub⟩
  | intersection _ ih =>
    rw [Schema.absentWithin, allAbsentWithin_iff]
    exact fun member hm => ih member hm (hr.part hm) hnodup hsub
  | @reference avoided r target ha ht _ ih =>
    have hnodup' : (r.cell :: avoided).Nodup := List.nodup_cons.mpr ⟨ha, hnodup⟩
    have hsub' : r.cell :: avoided ⊆ cells := List.cons_subset.mpr ⟨hcells r hr, hsub⟩
    have hle := (List.subperm_of_subset hnodup' hsub').length_le
    rw [List.length_cons] at hle
    have henter : avoided.length < maxHops ∧ r.cell ∉ avoided := ⟨by omega, ha⟩
    rw [Schema.absentWithin, if_pos henter, ht]
    exact ih (hr.target ht) hnodup' hsub'

/-- Asking whether a schema accepts absence computes the least relation: for every graph with
no more cells than references may be followed, however its references and members turn back
on each other, the answer is yes exactly if the schema admits absence. -/
theorem acceptsAbsent_iff_admitsAbsence (schema : Schema) (store : Store)
    (hcells : schema.CellsAtMost store.target? maxHops) :
    (schema.acceptsAbsent store).1 = true ↔ schema.AdmitsAbsence store.target? := by
  obtain ⟨cells, hlength, hmem⟩ := hcells
  rw [acceptsAbsent_fst]
  constructor
  · exact admitsAbsence_of_absentWithin [] schema
  · intro h
    exact h.avoiding.absentWithin hlength hmem .root List.nodup_nil (List.nil_subset _)

/-- The first of two definitions that mention each other: it also allows null. -/
def entangledUnion : Schema := .union [.reference ⟨1, .owner⟩, .nullable (.leaf .number)]

/-- The second of two definitions that mention each other: it mentions itself, too, and is
nothing but what the first one is. -/
def entangledIntersection : Schema :=
  .intersection [.union [.reference ⟨1, .back⟩, .reference ⟨0, .owner⟩], .any]

/-- A store with both definitions, of which none has been followed yet. -/
def entangledStore : Store :=
  (Store.empty.setCell 0 (.pending (.constant entangledUnion none))).setCell 1
    (.pending (.constant entangledIntersection none))

/-- The graph of the two definitions consists of them and their members. -/
theorem entangled_reaches {schema : Schema}
    (h : Reaches entangledStore.target? entangledIntersection schema) :
    schema ∈ [entangledIntersection, entangledUnion, .reference ⟨1, .owner⟩,
      .reference ⟨1, .back⟩, .reference ⟨0, .owner⟩, .nullable (.leaf .number), .leaf .number,
      .union [.reference ⟨1, .back⟩, .reference ⟨0, .owner⟩], .any] := by
  refine h.mem_of_closed (P := (· ∈ _)) (by simp) ?_ ?_
  · intro whole hw part hp
    simp only [List.mem_cons, List.not_mem_nil, or_false] at hw
    rcases hw with rfl | rfl | rfl | rfl | rfl | rfl | rfl | rfl | rfl <;>
      simp only [entangledIntersection, entangledUnion, parts, List.mem_cons, List.not_mem_nil,
        or_false] at hp
    · rcases hp with rfl | rfl <;> simp
    · rcases hp with rfl | rfl <;> simp
    · rcases hp with rfl; simp
    · rcases hp with rfl | rfl <;> simp
  · intro r hr target ht
    simp [entangledIntersection, entangledUnion] at hr
    rcases hr with rfl | rfl | rfl <;> cases ht <;> simp [Resolver.schema]

/-- Two definitions that turn back on each other before any container accept absence, though
each mention of the second inside itself is passed over. -/
theorem entangled_acceptsAbsent :
    entangledIntersection.CellsAtMost entangledStore.target? maxHops ∧
      (entangledIntersection.acceptsAbsent entangledStore).1 = true := by
  have hcells : entangledIntersection.CellsAtMost entangledStore.target? maxHops := by
    refine ⟨[0, 1], by decide, fun r h => ?_⟩
    have hmem := entangled_reaches h
    simp [entangledIntersection, entangledUnion] at hmem
    rcases hmem with rfl | rfl | rfl <;> simp
  have hunion : entangledUnion.AdmitsAbsence entangledStore.target? :=
    .union (List.mem_cons_of_mem _ List.mem_cons_self) .nullable
  have hfirst : AdmitsAbsence entangledStore.target?
      (.union [.reference ⟨1, .back⟩, .reference ⟨0, .owner⟩]) :=
    .union (List.mem_cons_of_mem _ List.mem_cons_self) (.reference rfl hunion)
  refine ⟨hcells, (acceptsAbsent_iff_admitsAbsence entangledIntersection entangledStore
    hcells).mpr (.intersection fun member hm => ?_)⟩
  rcases List.mem_cons.mp hm with rfl | hm
  · exact hfirst
  · rw [List.mem_singleton.mp hm]
    exact .any

end Conformance.Schema
