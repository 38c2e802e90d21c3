import Mathlib.Data.List.Pairwise
import Conformance.Proofs.Repetition

/-!
# Outputs that can stand together

One value extends another if it has all of its data. Outputs are compatible in pairs
exactly if some value extends all of them, and then merging them, in their order, gives
the least such value: it has the data of every output and, as an object, no entries but
theirs. So what a row of outputs is merged into depends, as data, only on which outputs
there are.
-/

namespace Conformance

namespace Json

/-- Two outputs can stand together: objects with equal data under every key that both have,
or else equal data. -/
def Compatible (a b : Json) : Prop :=
  match a, b with
  | .object es, .object fs =>
    ∀ key x y, Entries.lookup key es = some x → Entries.lookup key fs = some y → x.Same y
  | a, b => a.Same b

/-- A value is what some outputs are together: it has the data of each, and as an object it
has no entries but theirs. -/
structure Unites (outputs : List Json) (w : Json) : Prop where
  /-- It has the data of every output. -/
  all : ∀ output ∈ outputs, w.Extends output
  /-- Every entry is that of an output. -/
  only : ∀ entries, w = .object entries → ∀ key x, Entries.lookup key entries = some x →
    ∃ kept, Json.object kept ∈ outputs ∧ Entries.lookup key kept = some x

variable {a b c u w : Json} {outputs : List Json}

/-- A value with distinct keys extends itself. -/
theorem Extends.refl (hu : u.DistinctKeys) : u.Extends u := (Same.refl hu).extends hu hu

/-- Values that extend each other are equal data. -/
theorem Extends.antisymm (hu : u.DistinctKeys) (hw : w.DistinctKeys) (h : u.Extends w)
    (h' : w.Extends u) : u.Same w := by
  cases w with
  | object kept =>
    obtain ⟨more, rfl⟩ := h.exists_object
    rw [same_object hu.keys hw.keys]
    intro key
    cases hm : Entries.lookup key more with
    | some y =>
      obtain ⟨x, hx, _⟩ := h' key y hm
      obtain ⟨z, hz, hzx⟩ := h key x hx
      cases hm.symm.trans hz
      rw [hx]
      exact .some hzx
    | none =>
      cases hk : Entries.lookup key kept with
      | none => exact .none
      | some x =>
        obtain ⟨y, hy, _⟩ := h key x hk
        cases hm.symm.trans hy
  | _ => exact h.same_of_not_object fun kept h => by cases h

/-- What is no object is compatible with equal data only. -/
theorem compatible_iff_same (ha : ∀ entries, a ≠ .object entries) : a.Compatible b ↔ a.Same b := by
  cases a with
  | object entries => exact absurd rfl (ha entries)
  | _ => exact Iff.rfl

/-- Values that are extended by one value are compatible. -/
theorem Extends.compatible (hu : u.DistinctKeys) (ha : a.DistinctKeys) (hb : b.DistinctKeys)
    (h : u.Extends a) (h' : u.Extends b) : a.Compatible b := by
  by_cases hobject : ∃ entries, a = .object entries
  · obtain ⟨es, rfl⟩ := hobject
    obtain ⟨more, rfl⟩ := h.exists_object
    cases b with
    | object fs =>
      intro key x y hx hy
      obtain ⟨z, hz, hzx⟩ := h key x hx
      obtain ⟨other, ho, hzy⟩ := h' key y hy
      cases hz.symm.trans ho
      have hxz := hzx.symm (hu.lookup hz) (ha.lookup hx)
      exact hxz.trans (ha.lookup hx) (hu.lookup hz) (hb.lookup hy) hzy
    | _ => cases h'
  · have hne : ∀ entries, a ≠ .object entries := fun entries heq => hobject ⟨entries, heq⟩
    have hua := h.same_of_not_object hne
    have hau := hua.symm hu ha
    have hub : u.Same b := by
      refine h'.same_of_not_object fun kept heq => ?_
      subst heq
      obtain ⟨more, rfl⟩ := h'.exists_object
      obtain ⟨es, rfl⟩ := hau.exists_object
      exact hne es rfl
    exact (compatible_iff_same hne).mpr (hau.trans ha hu hb hub)

/-- What extends every output extends what the outputs are together. -/
theorem Unites.least (hout : ∀ output ∈ outputs, output.DistinctKeys) (hu : u.DistinctKeys)
    (hw : w.DistinctKeys) (hne : outputs ≠ []) (h : w.Unites outputs)
    (hall : ∀ output ∈ outputs, u.Extends output) : u.Extends w := by
  obtain ⟨output, ho⟩ := List.exists_mem_of_ne_nil outputs hne
  have hwo := h.all output ho
  have huo := hall output ho
  by_cases hobject : ∃ entries, w = .object entries
  · obtain ⟨entries, rfl⟩ := hobject
    cases output with
    | object kept =>
      obtain ⟨more, rfl⟩ := huo.exists_object
      intro key x hx
      obtain ⟨others, hothers, hl⟩ := h.only entries rfl key x hx
      exact hall _ hothers key x hl
    | _ => cases hwo
  · have hscalar : ∀ kept, output ≠ .object kept := by
      rintro kept rfl
      exact hobject hwo.exists_object
    have hsame := hwo.same_of_not_object hscalar
    have hother := huo.same_of_not_object hscalar
    have hback := hsame.symm hw (hout output ho)
    exact (hother.trans hu (hout output ho) hw hback).extends hu hw

end Json

section Merging

variable {a b c m : Json}

/-- Outputs can be merged if they are compatible. -/
theorem exists_mergeOutputs (hb : b.DistinctKeys) (h : a.Compatible b) :
    ∃ m, mergeOutputs a b = .ok m := by
  by_cases hobject : ∃ entries, a = .object entries
  · obtain ⟨es, rfl⟩ := hobject
    cases b with
    | object fs =>
      obtain ⟨result, hm⟩ := mergeEntries_isOk hb.keys h
      exact ⟨.object result, by rw [mergeOutputs, hm]⟩
    | _ => cases h
  · have hne : ∀ entries, a ≠ .object entries := fun entries heq => hobject ⟨entries, heq⟩
    exact ⟨a, mergeOutputs_of_same hne ((Json.compatible_iff_same hne).mp h)⟩

/-- A merged output is compatible with what both outputs are compatible with. -/
theorem mergeOutputs_compatible (hb : b.DistinctKeys) (h : mergeOutputs a b = .ok m)
    (hac : a.Compatible c) (hbc : b.Compatible c) : m.Compatible c := by
  rcases mergeOutputs_cases h with ⟨merged, addition, result, rfl, rfl, rfl, hm⟩ | ⟨_, _, rfl⟩
  · cases c with
    | object es =>
      intro key x y hx hy
      rw [(mergeEntries_lookup hb.keys hm key).1] at hx
      cases hl : Entries.lookup key merged with
      | some z =>
        rw [hl] at hx
        cases hx
        exact hac key _ y hl hy
      | none =>
        rw [hl] at hx
        exact hbc key x y hx hy
    | _ => cases hac
  · exact hac

/-- With one more output what the outputs are together is merged. -/
theorem Json.Unites.merge {outputs : List Json} (hout : ∀ output ∈ outputs, output.DistinctKeys)
    (ha : a.DistinctKeys) (hb : b.DistinctKeys) (h : a.Unites outputs)
    (hm : mergeOutputs a b = .ok m) : m.Unites (outputs ++ [b]) := by
  have hd := mergeOutputs_distinctKeys ha hb hm
  obtain ⟨hma, hmb⟩ := mergeOutputs_extends ha hb hm
  constructor
  · intro output ho
    rcases List.mem_append.mp ho with ho | ho
    · exact hma.trans hd ha (hout output ho) (h.all output ho)
    · rw [List.mem_singleton.mp ho]
      exact hmb
  · rintro entries rfl key x hx
    rcases mergeOutputs_cases hm with ⟨merged, addition, result, rfl, rfl, heq, hrow⟩ | ⟨_, _, rfl⟩
    · cases heq
      rw [(mergeEntries_lookup hb.keys hrow key).1] at hx
      cases hl : Entries.lookup key merged with
      | some z =>
        rw [hl] at hx
        cases hx
        obtain ⟨kept, hkept, hlk⟩ := h.only merged rfl key _ hl
        exact ⟨kept, List.mem_append_left _ hkept, hlk⟩
      | none =>
        rw [hl] at hx
        exact ⟨addition, List.mem_append_right _ (List.mem_singleton_self _), hx⟩
    · obtain ⟨kept, hkept, hlk⟩ := h.only entries rfl key x hx
      exact ⟨kept, List.mem_append_left _ hkept, hlk⟩

/-- What more outputs are merged into what some are together is what they all are. -/
theorem Json.Unites.mergeAll {before outputs : List Json}
    (hbefore : ∀ output ∈ before, output.DistinctKeys)
    (hout : ∀ output ∈ outputs, output.DistinctKeys) (ha : a.DistinctKeys)
    (h : a.Unites before) (hm : mergeAll (some a) outputs = some (some m)) :
    m.Unites (before ++ outputs) := by
  -- an output goes over to those before it once it is merged, so `before` grows
  induction outputs generalizing a before with
  | nil =>
    cases hm
    rwa [List.append_nil]
  | cons output rest ih =>
    obtain ⟨ho, hrest⟩ := List.forall_mem_cons.mp hout
    rw [Conformance.mergeAll] at hm
    split at hm
    · next both hboth =>
      have hdb := mergeOutputs_distinctKeys ha ho hboth
      have hgrown : ∀ w ∈ before ++ [output], w.DistinctKeys := by
        intro w hw
        rcases List.mem_append.mp hw with hw | hw
        · exact hbefore w hw
        · rw [List.mem_singleton.mp hw]
          exact ho
      have hall := ih hgrown hrest hdb (h.merge hbefore ha ho hboth) hm
      rwa [List.append_assoc, List.singleton_append] at hall
    · cases hm

/-- A row of outputs is merged into what they are together. -/
theorem mergeAll_unites {outputs : List Json} (hout : ∀ output ∈ outputs, output.DistinctKeys)
    (h : mergeAll none outputs = some (some m)) : m.DistinctKeys ∧ m.Unites outputs := by
  obtain ⟨hd, _, _⟩ := mergeAll_extends (fun a ha => by cases ha) hout h rfl
  refine ⟨hd, ?_⟩
  cases outputs with
  | nil => cases h
  | cons output rest =>
    obtain ⟨ho, hrest⟩ := List.forall_mem_cons.mp hout
    have hself : output.Unites [output] := by
      constructor
      · intro w hw
        rw [List.mem_singleton.mp hw]
        exact .refl ho
      · rintro entries rfl key x hx
        exact ⟨entries, List.mem_singleton_self _, hx⟩
    exact hself.mergeAll (by simpa using ho) hrest ho h

/-- Outputs that are compatible in pairs, also with what was merged before, can all be
merged. -/
theorem exists_mergeAll {merged : Option Json} {outputs : List Json}
    (hout : ∀ output ∈ outputs, output.DistinctKeys)
    (hmerged : ∀ a, merged = some a → ∀ output ∈ outputs, a.Compatible output)
    (h : outputs.Pairwise Json.Compatible) : ∃ all, mergeAll merged outputs = some all := by
  induction outputs generalizing merged with
  | nil => exact ⟨merged, rfl⟩
  | cons output rest ih =>
    obtain ⟨ho, hrest⟩ := List.forall_mem_cons.mp hout
    obtain ⟨hfirst, hpairs⟩ := List.pairwise_cons.mp h
    have hinto : ∃ both, mergeInto merged output = .ok both ∧
        ∀ w ∈ rest, both.Compatible w := by
      cases merged with
      | none => exact ⟨output, rfl, hfirst⟩
      | some a =>
        obtain ⟨hao, har⟩ := List.forall_mem_cons.mp (hmerged a rfl)
        obtain ⟨both, hboth⟩ := exists_mergeOutputs ho hao
        exact ⟨both, hboth, fun w hw => mergeOutputs_compatible ho hboth (har w hw) (hfirst w hw)⟩
    obtain ⟨both, hboth, hcompatible⟩ := hinto
    rw [mergeAll, hboth]
    refine ih hrest (fun a ha => ?_) hpairs
    cases ha
    exact hcompatible

/-- A row of outputs that one value extends is compatible in pairs. -/
theorem pairwise_compatible {u : Json} {outputs : List Json} (hu : u.DistinctKeys)
    (hout : ∀ output ∈ outputs, output.DistinctKeys) (h : ∀ output ∈ outputs, u.Extends output) :
    outputs.Pairwise Json.Compatible :=
  List.pairwise_of_forall_mem_list fun a ha b hb =>
    (h a ha).compatible hu (hout a ha) (hout b hb) (h b hb)

/-- A row of outputs can be merged exactly if some value extends them all. -/
theorem exists_mergeAll_iff {outputs : List Json}
    (hout : ∀ output ∈ outputs, output.DistinctKeys) (hne : outputs ≠ []) :
    (∃ m, mergeAll none outputs = some (some m)) ↔ outputs.Pairwise Json.Compatible := by
  constructor
  · rintro ⟨m, h⟩
    obtain ⟨hd, hunites⟩ := mergeAll_unites hout h
    exact pairwise_compatible hd hout hunites.all
  · intro h
    have hnone : ∀ a, (none : Option Json) = some a → ∀ output ∈ outputs, a.Compatible output :=
      fun a ha => by cases ha
    obtain ⟨all, hall⟩ := exists_mergeAll hout hnone h
    cases all with
    | none => exact absurd (mergeAll_eq_none hall).2 hne
    | some m => exact ⟨m, hall⟩

end Merging

end Conformance
