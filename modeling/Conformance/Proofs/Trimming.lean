import Conformance.Proofs.Leaves
import Conformance.Proofs.Outputs

/-!
# Outputs have no keys of their own

An output is an object only where the value is one, with no other keys, and it is
null only where the value is null. This holds for every policy that takes scalars
to scalars, in every graph.
-/

namespace Conformance

section Rows

variable {β : Type} {R : Child → β → Prop} {S : Json → β → Prop} {schema : Schema}
  {items : List Json} {position : Nat} {outputs : List β}

/-- What is known of the children of a list is known of its items. -/
theorem Child.forall₂_of_ofItems (h : List.Forall₂ R (Child.ofItems schema position items) outputs)
    (himp : ∀ segment item output, R (.present segment schema item) output → S item output) :
    List.Forall₂ S items outputs := by
  induction items generalizing position outputs with
  | nil =>
    cases h
    exact .nil
  | cons item rest ih =>
    cases h with
    | cons hitem hrest => exact .cons (himp _ item _ hitem) (ih hrest)

/-- What is known of the items of a list is known of its children. -/
theorem Child.ofItems_forall₂ (h : List.Forall₂ S items outputs)
    (himp : ∀ segment item output, S item output → R (.present segment schema item) output) :
    List.Forall₂ R (Child.ofItems schema position items) outputs := by
  induction h generalizing position with
  | nil => exact .nil
  | cons hitem _ ih => exact .cons (himp _ _ _ hitem) ih

end Rows

/-- Whatever merging preserves, a merged row of outputs has if its outputs have. -/
theorem mergeAll_forall {P : Json → Prop}
    (hmerge : ∀ a b m, P a → P b → mergeOutputs a b = .ok m → P m) {merged all : Option Json}
    {outputs : List Json} (hmerged : ∀ a, merged = some a → P a) (hout : ∀ w ∈ outputs, P w)
    (h : mergeAll merged outputs = some all) : ∀ m, all = some m → P m := by
  induction outputs generalizing merged with
  | nil =>
    cases h
    exact hmerged
  | cons output rest ih =>
    obtain ⟨ho, hrest⟩ := List.forall_mem_cons.mp hout
    rw [mergeAll] at h
    split at h
    · next both hboth =>
      refine ih (fun a ha => ?_) hrest h
      cases ha
      cases merged with
      | none =>
        cases hboth
        exact ho
      | some previous => exact hmerge previous output both (hmerged previous rfl) ho hboth
    · cases h

/-- A merged output is null where the first one is. -/
theorem mergeOutputs_isNull {previous next output : Json}
    (h : mergeOutputs previous next = .ok output) : output.isNull = previous.isNull := by
  unfold mergeOutputs at h
  split at h
  · split at h
    · cases h
      rfl
    · cases h
  · split at h
    · cases h
      rfl
    · cases h

/-- A policy under which every leaf takes scalars to scalars. -/
def Policy.Flat (policy : Policy) : Prop :=
  ∀ leaf value output, policy.check leaf value = .ok output → value.isScalar ∧ output.isScalar

/-- The built-in policies take scalars to scalars. -/
theorem PolicyKind.policy_flat (kind : PolicyKind) : kind.policy.Flat := by
  intro leaf value output h
  obtain ⟨hvalue, hout, _⟩ := kind.settling leaf value output h
  exact ⟨hvalue, hout⟩

/-- A scalar is not null. -/
theorem Json.isNull_of_isScalar {value : Json} (h : value.isScalar) : value.isNull = false := by
  cases value with
  | null => cases h
  | _ => rfl

/-- A scalar has no keys. -/
theorem Json.not_hasKey_of_isScalar {value : Json} (h : value.isScalar) (key : String) :
    ¬value.HasKey key := by
  cases value with
  | object => cases h
  | _ => exact id

/-- An output that has no keys but those of the value, and is null where the value is. -/
def Json.Trims (value output : Json) : Prop :=
  (∀ key, output.HasKey key → value.HasKey key) ∧ output.isNull = value.isNull

/-- Merged outputs trim what both outputs trim. -/
theorem Json.trims_mergeOutputs (value : Json) {previous next output : Json}
    (hp : value.Trims previous) (hn : value.Trims next)
    (h : mergeOutputs previous next = .ok output) : value.Trims output := by
  refine ⟨fun key hk => ?_, (mergeOutputs_isNull h).trans hp.2⟩
  exact (mergeOutputs_hasKey h hk).elim (hp.1 key) (hn.1 key)

/-- What an output is merged into, if anything, trims what both trim. -/
theorem Json.trims_mergeInto (value : Json) {merged : Option Json} {next output : Json}
    (hp : ∀ previous, merged = some previous → value.Trims previous) (hn : value.Trims next)
    (h : mergeInto merged next = .ok output) : value.Trims output := by
  cases merged with
  | none =>
    cases h
    exact hn
  | some previous => exact value.trims_mergeOutputs (hp previous rfl) hn h

/-- The outputs of declared fields stand under keys of the object. -/
theorem hasKey_of_nameOutputs {grounds : Grounds} {motive : Grounds.Motive} {depth : Nat}
    {entries : List (String × Json)} {fields : List (Field Schema)}
    {outputs : List (Option Json)} {key : String}
    (h : List.Forall₂ (Grounds.ChildOutput grounds motive depth)
      (fields.map (Child.ofField entries)) outputs)
    (hk : (Entries.lookup key (nameOutputs (fields.map Field.name) outputs)).isSome) :
    (Entries.lookup key entries).isSome := by
  induction fields generalizing outputs with
  | nil => cases hk
  | cons field rest ih =>
    rw [List.map_cons] at h
    obtain ⟨output, others, hchild, hrest, rfl⟩ := List.forall₂_cons_left_iff.mp h
    rw [Child.ofField] at hchild
    cases hl : Entries.lookup field.name entries with
    | some value =>
      rw [hl] at hchild
      cases hchild with
      | present =>
        rw [List.map_cons, nameOutputs_cons_some, Entries.lookup] at hk
        split at hk
        · next hname =>
          rw [← hname, hl]
          rfl
        · exact ih hrest hk
    | none =>
      rw [hl] at hchild
      cases hchild with
      | absent =>
        rw [List.map_cons, nameOutputs_cons_none] at hk
        exact ih hrest hk

/-- What is said of an accepted value: the output trims it. -/
def trimming : Grounds.Motive := fun _ value _ _ output => value.Trims output

theorem trimming_inductive {grounds : Grounds} (hflat : grounds.policy.Flat) :
    grounds.Inductive trimming where
  leaf leaf value depth entered output h := by
    obtain ⟨hvalue, hout⟩ := hflat leaf value output h
    refine ⟨fun key hk => absurd hk (Json.not_hasKey_of_isScalar hout key), ?_⟩
    rw [Json.isNull_of_isScalar hout, Json.isNull_of_isScalar hvalue]
  null inner depth entered := ⟨fun _ => id, rfl⟩
  nullable inner value depth entered output _ _ ih := ih
  union before member after value depth entered output _ _ ih := ih
  intersection members outputs all value depth entered hrow hall := by
    have hout : ∀ w ∈ outputs, value.Trims w := by
      intro w hw
      obtain ⟨_, _, _, htrims⟩ := exists_of_forall₂_of_mem hrow.flip hw
      exact htrims
    cases all with
    | none => exact ⟨fun _ => id, rfl⟩
    | some m => exact mergeAll_forall (fun a b m => value.trims_mergeOutputs) (fun a ha => by cases ha) hout hall m rfl
  reference r target value depth entered output _ _ _ ih := ih
  any value depth entered := ⟨fun _ => id, rfl⟩
  scalar value depth entered _ := ⟨fun _ => id, rfl⟩
  container schema value depth entered children assemble outputs hc _ hrow := by
    cases hc with
    | items => exact ⟨fun key hk => hk.elim, rfl⟩
    | @entries entry entries _ =>
      refine ⟨fun key hk => ?_, rfl⟩
      have hkey := Entries.lookup_isSome_iff.mp hk
      exact Entries.lookup_isSome_iff.mpr ((nameOutputs_keys_sublist _ outputs).subset hkey)
    | fields => exact ⟨fun key hk => hasKey_of_nameOutputs hrow hk, rfl⟩

/-- Every output trims the value. -/
theorem Grounds.accept_trims {grounds : Grounds} (hflat : grounds.policy.Flat) {schema : Schema}
    {value output : Json} {depth : Nat} {entered : List CellId}
    (h : grounds.accept schema value depth entered = some output) : value.Trims output :=
  (trimming_inductive hflat).holds schema value depth entered output h

end Conformance
