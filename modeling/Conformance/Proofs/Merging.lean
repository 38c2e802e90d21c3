import Conformance.Proofs.Trimming

/-!
# Merging up to equality of data

A merged object has under each key what the first of the two objects has, or else
the second, and two objects can be merged exactly if they agree where they have a
key in common. So a merged output extends every output that went into it, and the
merging of equal data gives equal data.
-/

namespace Conformance

section Entries

variable {merged addition result : List (String × Json)}

/-- A merged row has what the first row has, and else what the second one has; where both
have something, it is equal data. -/
theorem mergeEntries_lookup (hd : (addition.map Prod.fst).Nodup)
    (h : mergeEntries merged addition = .ok result) (key : String) :
    Entries.lookup key result = (Entries.lookup key merged).or (Entries.lookup key addition) ∧
      ∀ x y, Entries.lookup key merged = some x → Entries.lookup key addition = some y →
        x.Same y := by
  induction addition generalizing merged with
  | nil =>
    cases h
    refine ⟨by simp [Entries.lookup], fun x y _ hy => by cases hy⟩
  | cons entry rest ih =>
    obtain ⟨k, value⟩ := entry
    obtain ⟨hk, hrest⟩ := List.nodup_cons.mp hd
    rw [mergeEntries] at h
    rw [Entries.lookup]
    split at h
    · next existing hl =>
      split at h
      · next hsame =>
        obtain ⟨hlookup, hagree⟩ := ih hrest h
        split
        · next heq =>
          subst heq
          refine ⟨by rw [hlookup, hl]; rfl, fun x y hx hy => ?_⟩
          rw [hl] at hx
          cases hx
          cases hy
          exact hsame
        · exact ⟨hlookup, hagree⟩
      · cases h
    · next hl =>
      obtain ⟨hlookup, hagree⟩ := ih hrest h
      rw [Entries.lookup_append, Entries.lookup, Entries.lookup] at hlookup hagree
      split at hlookup
      · next heq =>
        subst heq
        refine ⟨by rw [hlookup, hl, if_pos rfl]; rfl, fun x y hx => ?_⟩
        rw [hl] at hx
        cases hx
      · next hne =>
        rw [if_neg hne, Option.or_none] at hagree
        rw [Option.or_none] at hlookup
        rw [if_neg hne]
        exact ⟨hlookup, hagree⟩

/-- A merged row has distinct keys if the first row has. -/
theorem mergeEntries_nodup (hd : (merged.map Prod.fst).Nodup)
    (h : mergeEntries merged addition = .ok result) : (result.map Prod.fst).Nodup := by
  induction addition generalizing merged with
  | nil =>
    cases h
    exact hd
  | cons entry rest ih =>
    obtain ⟨k, value⟩ := entry
    rw [mergeEntries] at h
    split at h
    · split at h
      · exact ih hd h
      · cases h
    · next hl =>
      refine ih ?_ h
      rw [List.map_append, List.map_singleton, List.nodup_append]
      refine ⟨hd, List.nodup_singleton _, fun a ha b hb heq => ?_⟩
      rw [List.mem_singleton.mp hb] at heq
      subst heq
      exact Entries.lookup_eq_none_iff.mp hl ha

/-- Rows that agree where they have a key in common can be merged. -/
theorem mergeEntries_isOk (hd : (addition.map Prod.fst).Nodup)
    (hagree : ∀ key x y, Entries.lookup key merged = some x →
      Entries.lookup key addition = some y → x.Same y) :
    ∃ result, mergeEntries merged addition = .ok result := by
  induction addition generalizing merged with
  | nil => exact ⟨merged, rfl⟩
  | cons entry rest ih =>
    obtain ⟨k, value⟩ := entry
    obtain ⟨hk, hrest⟩ := List.nodup_cons.mp hd
    have hlater : ∀ key y, Entries.lookup key rest = some y →
        k ≠ key ∧ Entries.lookup key ((k, value) :: rest) = some y := by
      intro key y hy
      have hne : k ≠ key := by
        rintro rfl
        exact hk (List.mem_map.mpr ⟨_, Entries.mem_of_lookup hy, rfl⟩)
      exact ⟨hne, by rw [Entries.lookup, if_neg hne]; exact hy⟩
    rw [mergeEntries]
    split
    · next existing hl =>
      have hsame := hagree k existing value hl (by rw [Entries.lookup, if_pos rfl])
      rw [if_pos hsame]
      exact ih hrest fun key x y hx hy => hagree key x y hx (hlater key y hy).2
    · next hl =>
      refine ih hrest fun key x y hx hy => ?_
      obtain ⟨hne, hy⟩ := hlater key y hy
      rw [Entries.lookup_append, Entries.lookup, if_neg hne, Entries.lookup, Option.or_none] at hx
      exact hagree key x y hx hy

end Entries

/-- A value has all the data of another: under each of its keys if both are objects, and
else as a whole. -/
def Json.Extends (u w : Json) : Prop :=
  match u, w with
  | .object more, .object kept =>
    ∀ key x, Entries.lookup key kept = some x → ∃ y, Entries.lookup key more = some y ∧ y.Same x
  | u, w => u.Same w

namespace Json

variable {u v w : Json}

/-- Equal data are all the data. -/
theorem Same.extends (hu : u.DistinctKeys) (hw : w.DistinctKeys) (h : u.Same w) : u.Extends w := by
  cases u with
  | object more =>
    cases w with
    | object kept =>
      rw [same_object hu.keys hw.keys] at h
      intro key x hx
      have hk := h key
      rw [hx] at hk
      cases hm : Entries.lookup key more with
      | none =>
        rw [hm] at hk
        cases hk
      | some y =>
        rw [hm] at hk
        cases hk with
        | some hsame => exact ⟨y, rfl, hsame⟩
    | _ => exact h
  | _ => exact h

/-- Only an object extends an object. -/
theorem Extends.exists_object {kept : List (String × Json)} (h : u.Extends (.object kept)) :
    ∃ more, u = .object more := by
  cases u with
  | object more => exact ⟨more, rfl⟩
  | _ => cases h

/-- What extends a value that is no object is equal data. -/
theorem Extends.same_of_not_object (h : u.Extends w) (hw : ∀ kept, w ≠ .object kept) :
    u.Same w := by
  cases w with
  | object kept => exact absurd rfl (hw kept)
  | _ => cases u <;> exact h

/-- Extension carries over. -/
theorem Extends.trans (hu : u.DistinctKeys) (hv : v.DistinctKeys) (hw : w.DistinctKeys)
    (h : u.Extends v) (h' : v.Extends w) : u.Extends w := by
  cases v with
  | object middle =>
    obtain ⟨more, rfl⟩ := h.exists_object
    cases w with
    | object kept =>
      intro key x hx
      obtain ⟨y, hy, hyx⟩ := h' key x hx
      obtain ⟨z, hz, hzy⟩ := h key y hy
      exact ⟨z, hz, hzy.trans (hu.lookup hz) (hv.lookup hy) (hw.lookup hx) hyx⟩
    | _ => cases h'
  | _ =>
    have hsame := h.same_of_not_object fun kept h => by cases h
    cases w with
    | object kept => cases h'
    | _ =>
      exact (hsame.trans hu hv hw (h'.same_of_not_object fun kept h => by cases h)).extends hu hw

end Json

/-- What two outputs are merged into: the merged objects, or the first of two equal data. -/
theorem mergeOutputs_cases {a b m : Json} (h : mergeOutputs a b = .ok m) :
    (∃ merged addition result, a = .object merged ∧ b = .object addition ∧ m = .object result ∧
      mergeEntries merged addition = .ok result) ∨
    (∀ entries, a ≠ .object entries) ∧ a.Same b ∧ m = a := by
  unfold mergeOutputs at h
  split at h
  · next merged addition =>
    split at h
    · next result hm =>
      cases h
      exact .inl ⟨merged, addition, result, rfl, rfl, rfl, hm⟩
    · cases h
  · next hne =>
    split at h
    · next hsame =>
      cases h
      refine .inr ⟨fun entries ha => ?_, hsame, rfl⟩
      subst ha
      cases b with
      | object others => exact hne entries others rfl rfl
      | _ => cases hsame
    · cases h

/-- Equal data that are no objects are merged into the first. -/
theorem mergeOutputs_of_same {a b : Json} (ha : ∀ entries, a ≠ .object entries) (h : a.Same b) :
    mergeOutputs a b = .ok a := by
  cases a with
  | object entries => exact absurd rfl (ha entries)
  | _ => exact if_pos h

section Outputs

variable {a b m : Json}

/-- A merged output has distinct keys. -/
theorem mergeOutputs_distinctKeys (ha : a.DistinctKeys) (hb : b.DistinctKeys)
    (h : mergeOutputs a b = .ok m) : m.DistinctKeys := by
  rcases mergeOutputs_cases h with ⟨merged, addition, result, rfl, rfl, rfl, hm⟩ | ⟨_, _, rfl⟩
  · have hnodup := mergeEntries_nodup ha.keys hm
    refine .object hnodup fun entry he => ?_
    have hl := (mergeEntries_lookup hb.keys hm entry.1).1
    rw [Entries.lookup_of_mem hnodup he] at hl
    cases hx : Entries.lookup entry.1 merged with
    | some x =>
      rw [hx] at hl
      cases hl
      exact ha.lookup hx
    | none =>
      rw [hx] at hl
      exact hb.lookup hl.symm
  · exact ha

/-- A merged output extends both outputs. -/
theorem mergeOutputs_extends (ha : a.DistinctKeys) (hb : b.DistinctKeys)
    (h : mergeOutputs a b = .ok m) : m.Extends a ∧ m.Extends b := by
  rcases mergeOutputs_cases h with ⟨merged, addition, result, rfl, rfl, rfl, hm⟩ | ⟨_, hsame, rfl⟩
  · constructor
    · intro key x hx
      have hl := (mergeEntries_lookup hb.keys hm key).1
      rw [hx] at hl
      exact ⟨x, hl, .refl (ha.lookup hx)⟩
    · intro key y hy
      obtain ⟨hl, hagree⟩ := mergeEntries_lookup hb.keys hm key
      cases hx : Entries.lookup key merged with
      | some x =>
        rw [hx] at hl
        exact ⟨x, hl, hagree x y hx hy⟩
      | none =>
        rw [hx, hy] at hl
        exact ⟨y, hl, .refl (hb.lookup hy)⟩
  · exact ⟨(Json.Same.refl ha).extends ha ha, hsame.extends ha hb⟩

/-- Equal data are merged into equal data. -/
theorem mergeOutputs_congr {a' b' : Json} (ha : a.DistinctKeys) (hb : b.DistinctKeys)
    (ha' : a'.DistinctKeys) (hb' : b'.DistinctKeys) (hsa : a'.Same a) (hsb : b'.Same b)
    (h : mergeOutputs a b = .ok m) : ∃ m', mergeOutputs a' b' = .ok m' ∧ m'.Same m := by
  rcases mergeOutputs_cases h with ⟨merged, addition, result, rfl, rfl, rfl, hm⟩ | ⟨hne, hsame, rfl⟩
  · obtain ⟨merged', rfl⟩ := hsa.exists_object
    obtain ⟨addition', rfl⟩ := hsb.exists_object
    have hagree : ∀ key x y, Entries.lookup key merged' = some x →
        Entries.lookup key addition' = some y → x.Same y := by
      intro key x' y' hx' hy'
      obtain ⟨x, hx, hsx⟩ := hsa.lookup ha' ha hx'
      obtain ⟨y, hy, hsy⟩ := hsb.lookup hb' hb hy'
      have hxy := (mergeEntries_lookup hb.keys hm key).2 x y hx hy
      have hdx := ha.lookup hx
      have hdy := hb.lookup hy
      have hyy' := hsy.symm (hb'.lookup hy') hdy
      exact hsx.trans (ha'.lookup hx') hdx (hb'.lookup hy') (hxy.trans hdx hdy (hb'.lookup hy') hyy')
    obtain ⟨result', hm'⟩ := mergeEntries_isOk hb'.keys hagree
    refine ⟨.object result', by rw [mergeOutputs, hm'], ?_⟩
    rw [Json.same_object (mergeEntries_nodup ha'.keys hm') (mergeEntries_nodup ha.keys hm)]
    intro key
    rw [(mergeEntries_lookup hb'.keys hm' key).1, (mergeEntries_lookup hb.keys hm key).1]
    cases hx' : Entries.lookup key merged' with
    | none =>
      have hrel := (Json.same_object ha'.keys ha.keys).mp hsa key
      rw [hx'] at hrel
      rw [rel_none_left hrel]
      exact (Json.same_object hb'.keys hb.keys).mp hsb key
    | some x' =>
      obtain ⟨x, hx, hsx⟩ := hsa.lookup ha' ha hx'
      rw [hx]
      exact .some hsx
  · have hne' : ∀ entries, a' ≠ .object entries := by
      intro entries heq
      subst heq
      obtain ⟨others, ho⟩ := (hsa.symm ha' ha).exists_object
      exact hne others ho
    have hbb' := hsb.symm hb' hb
    have hab' : a'.Same b' := hsa.trans ha' ha hb' (hsame.trans ha hb hb' hbb')
    exact ⟨a', mergeOutputs_of_same hne' hab', hsa⟩

end Outputs

/-- A merged row of outputs has distinct keys and extends every output, and what there
was before. -/
theorem mergeAll_extends {merged all : Option Json} {outputs : List Json}
    (hmerged : ∀ a, merged = some a → a.DistinctKeys) (hout : ∀ w ∈ outputs, w.DistinctKeys)
    (h : mergeAll merged outputs = some all) {m : Json} (hm : all = some m) :
    m.DistinctKeys ∧ (∀ a, merged = some a → m.Extends a) ∧ ∀ w ∈ outputs, m.Extends w := by
  induction outputs generalizing merged with
  | nil =>
    cases h
    have hd := hmerged m hm
    refine ⟨hd, fun a ha => ?_, fun w hw => by cases hw⟩
    cases hm.symm.trans ha
    exact (Json.Same.refl hd).extends hd hd
  | cons output rest ih =>
    obtain ⟨ho, hrest⟩ := List.forall_mem_cons.mp hout
    rw [mergeAll] at h
    split at h
    · next both hboth =>
      have hinto : both.DistinctKeys ∧ (∀ a, merged = some a → both.Extends a) ∧
          both.Extends output := by
        cases merged with
        | none =>
          cases hboth
          exact ⟨ho, fun a ha => (by cases ha), (Json.Same.refl ho).extends ho ho⟩
        | some previous =>
          have hp := hmerged previous rfl
          obtain ⟨hep, heo⟩ := mergeOutputs_extends hp ho hboth
          refine ⟨mergeOutputs_distinctKeys hp ho hboth, fun a ha => ?_, heo⟩
          cases ha
          exact hep
      obtain ⟨hdb, hbp, hbo⟩ := hinto
      obtain ⟨hdm, hmb, hmr⟩ := ih (fun a ha => by cases ha; exact hdb) hrest h
      have hme := hmb both rfl
      refine ⟨hdm, fun a ha => hme.trans hdm hdb (hmerged a ha) (hbp a ha), ?_⟩
      exact List.forall_mem_cons.mpr ⟨hme.trans hdm hdb ho hbo, hmr⟩
    · cases h

/-- Rows of equal data are merged into equal data. -/
theorem mergeAll_congr {merged merged' all : Option Json} {outputs outputs' : List Json}
    (hmerged : ∀ a, merged = some a → a.DistinctKeys)
    (hmerged' : ∀ a, merged' = some a → a.DistinctKeys)
    (hout : ∀ w ∈ outputs, w.DistinctKeys) (hout' : ∀ w ∈ outputs', w.DistinctKeys)
    (hsame : Option.Rel Json.Same merged' merged) (hrow : List.Forall₂ Json.Same outputs' outputs)
    (h : mergeAll merged outputs = some all) :
    ∃ all', mergeAll merged' outputs' = some all' ∧ Option.Rel Json.Same all' all := by
  induction hrow generalizing merged merged' with
  | nil =>
    cases h
    exact ⟨merged', rfl, hsame⟩
  | @cons output' output rest' rest hso _ ih =>
    obtain ⟨ho, hrest⟩ := List.forall_mem_cons.mp hout
    obtain ⟨ho', hrest'⟩ := List.forall_mem_cons.mp hout'
    rw [mergeAll] at h ⊢
    split at h
    · next both hboth =>
      have hinto : both.DistinctKeys ∧ ∃ both', mergeInto merged' output' = .ok both' ∧
          both'.DistinctKeys ∧ both'.Same both := by
        cases hsame with
        | none =>
          cases hboth
          exact ⟨ho, output', rfl, ho', hso⟩
        | @some previous' previous hsp =>
          have hp := hmerged previous rfl
          have hp' := hmerged' previous' rfl
          obtain ⟨both', hboth', hsb⟩ := mergeOutputs_congr hp ho hp' ho' hsp hso hboth
          exact ⟨mergeOutputs_distinctKeys hp ho hboth, both', hboth',
            mergeOutputs_distinctKeys hp' ho' hboth', hsb⟩
      obtain ⟨hdb, both', hboth', hdb', hsb⟩ := hinto
      rw [hboth']
      refine ih (fun a ha => ?_) (fun a ha => ?_) hrest hrest' (.some hsb) h
      · cases ha
        exact hdb
      · cases ha
        exact hdb'
    · cases h

end Conformance
