import Mathlib.Data.List.Perm.Subperm
import Conformance.Literal
import Conformance.Proofs.Keys
import Conformance.Proofs.Rows
import Conformance.Proofs.Words

/-!
# Equality of data

Equality of data is an equivalence between values with distinct keys. Numbers
have a datum that decides it, lists are compared item by item, and objects by
what they have under each key.
-/

namespace Conformance

namespace Binary64

/-- The magnitude is that of the signed value. -/
theorem natAbs_signedUnits (x : Binary64) : x.signedUnits.natAbs = x.units := by
  unfold signedUnits
  split <;> simp

/-- The whole part is that of the signed value. -/
theorem integerPart_eq_tdiv (x : Binary64) :
    x.integerPart = x.signedUnits.tdiv (unitsPerOne : Nat) := by
  unfold integerPart signedUnits
  split
  · rw [Int.neg_tdiv, Int.ofNat_tdiv]
  · rw [Int.ofNat_tdiv]

end Binary64

namespace Number

/-- What two numbers have in common exactly if they are equal data: their kind, and
their value in whole numbers or in units. -/
def datum : Number → Sum Int Int
  | .int n _ => .inl n
  | .float x => .inr x.signedUnits

/-- Numbers are equal data if they have one datum. -/
theorem sameData_iff {a b : Number} : a.sameData b ↔ a.datum = b.datum := by
  cases a <;> cases b <;> simp [sameData, datum, Binary64.sameValue]

/-- Equal data have a fractional part alike. -/
theorem isIntegral_congr {a b : Number} (h : a.sameData b) : a.isIntegral = b.isIntegral := by
  rw [sameData_iff] at h
  cases a with
  | int m hm =>
    cases b with
    | int n hn => rw [isIntegral_int, isIntegral_int]
    | float y => cases h
  | float x =>
    cases b with
    | int n hn => cases h
    | float y =>
      have hunits : x.signedUnits = y.signedUnits := Sum.inr.inj h
      rw [isIntegral_float, isIntegral_float, Binary64.isInteger, Binary64.isInteger,
        ← x.natAbs_signedUnits, hunits, y.natAbs_signedUnits]

/-- Equal data are rounded to equal data. -/
theorem truncate_congr {a b : Number} (h : a.sameData b) : a.truncate.sameData b.truncate := by
  rw [sameData_iff] at h ⊢
  cases a with
  | int m hm =>
    cases b with
    | int n hn =>
      rw [truncate_int, truncate_int]
      exact h
    | float y => cases h
  | float x =>
    cases b with
    | int n hn => cases h
    | float y =>
      have hunits : x.signedUnits = y.signedUnits := Sum.inr.inj h
      have hpart : x.integerPart = y.integerPart := by
        rw [x.integerPart_eq_tdiv, y.integerPart_eq_tdiv, hunits]
      by_cases hr : fitsSigned y.integerPart
      · obtain ⟨_, hx⟩ := truncate_of_fitsSigned (hpart ▸ hr)
        obtain ⟨_, hy⟩ := truncate_of_fitsSigned hr
        rw [hx, hy]
        exact congrArg Sum.inl hpart
      · rw [truncate_of_not_fitsSigned (hpart ▸ hr), truncate_of_not_fitsSigned hr]
        exact h

/-- A rounded number is rounded already. -/
theorem truncate_truncate (n : Number) : n.truncate.truncate = n.truncate := by
  cases n with
  | int n h => rw [truncate_int, truncate_int]
  | float x =>
    by_cases hr : fitsSigned x.integerPart
    · obtain ⟨_, hx⟩ := truncate_of_fitsSigned hr
      rw [hx, truncate_int]
    · rw [truncate_of_not_fitsSigned hr, truncate_of_not_fitsSigned hr]

/-- Equal data compare alike across the kinds. -/
theorem numericallyEqual_congr (expected : Number) {a b : Number} (h : a.sameData b) :
    expected.numericallyEqual a = expected.numericallyEqual b := by
  rw [sameData_iff] at h
  cases a with
  | int m hm =>
    cases b with
    | int n hn =>
      cases Sum.inl.inj h
      rfl
    | float y => cases h
  | float x =>
    cases b with
    | int n hn => cases h
    | float y =>
      have hunits : x.signedUnits = y.signedUnits := Sum.inr.inj h
      rw [numericallyEqual_float, numericallyEqual_float, Binary64.sameValue,
        Binary64.sameValue, hunits]

end Number

namespace Json

/-- Two values are equal data. -/
abbrev Same (a b : Json) : Prop := a.sameData b = true

/-- Truth values are equal data if they are equal. -/
theorem same_bool {b c : Bool} : (Json.bool b).Same (.bool c) ↔ b = c := beq_iff_eq

/-- Texts are equal data if they are equal. -/
theorem same_string {s t : String} : (Json.string s).Same (.string t) ↔ s = t := beq_iff_eq

/-- Only null is equal data to null. -/
theorem Same.eq_null {u : Json} (h : u.Same .null) : u = .null := by
  cases u with
  | null => rfl
  | _ => cases h

/-- Only a truth value is equal data to itself. -/
theorem Same.eq_bool {u : Json} {b : Bool} (h : u.Same (.bool b)) : u = .bool b := by
  cases u with
  | bool c => rw [same_bool.mp h]
  | _ => cases h

/-- Only a text is equal data to itself. -/
theorem Same.eq_string {u : Json} {s : String} (h : u.Same (.string s)) : u = .string s := by
  cases u with
  | string t => rw [same_string.mp h]
  | _ => cases h

/-- Only numbers are equal data to a number. -/
theorem Same.exists_number {u : Json} {n : Number} (h : u.Same (.number n)) :
    ∃ m, u = .number m ∧ m.sameData n := by
  cases u with
  | number m => exact ⟨m, rfl, h⟩
  | _ => cases h

/-- Only lists are equal data to a list. -/
theorem Same.exists_array {u : Json} {items : List Json} (h : u.Same (.array items)) :
    ∃ others, u = .array others := by
  cases u with
  | array others => exact ⟨others, rfl⟩
  | _ => cases h

/-- Only objects are equal data to an object. -/
theorem Same.exists_object {u : Json} {entries : List (String × Json)}
    (h : u.Same (.object entries)) : ∃ others, u = .object others := by
  cases u with
  | object others => exact ⟨others, rfl⟩
  | _ => cases h

/-- Lists are equal data item by item. -/
theorem sameItems_iff {xs ys : List Json} : sameItems xs ys ↔ List.Forall₂ Same xs ys := by
  induction xs generalizing ys with
  | nil =>
    cases ys with
    | nil => exact iff_of_true rfl .nil
    | cons y ys => exact iff_of_false Bool.false_ne_true nofun
  | cons x xs ih =>
    cases ys with
    | nil => exact iff_of_false Bool.false_ne_true nofun
    | cons y ys =>
      have hstep : sameItems (x :: xs) (y :: ys) = (x.sameData y && sameItems xs ys) := rfl
      rw [hstep, Bool.and_eq_true, List.forall₂_cons, ih]

/-- Lists are equal data item by item. -/
theorem same_array {xs ys : List Json} :
    (Json.array xs).Same (.array ys) ↔ List.Forall₂ Same xs ys := sameItems_iff

/-- Every entry of the first row has equal data in the second. -/
theorem sameEntries_iff {es fs : List (String × Json)} :
    sameEntries es fs ↔
      ∀ entry ∈ es, ∃ w, Entries.lookup entry.1 fs = some w ∧ entry.2.Same w := by
  induction es with
  | nil => exact iff_of_true rfl fun _ h => absurd h List.not_mem_nil
  | cons entry rest ih =>
    obtain ⟨k, v⟩ := entry
    rw [sameEntries, Bool.and_eq_true, ih, List.forall_mem_cons]
    refine and_congr_left' ?_
    cases Entries.lookup k fs <;> simp

/-- Objects with distinct keys are equal data if they have equal data, or nothing, under
every key. -/
theorem same_object {es fs : List (String × Json)} (he : (es.map Prod.fst).Nodup)
    (hf : (fs.map Prod.fst).Nodup) :
    (Json.object es).Same (.object fs) ↔
      ∀ key, Option.Rel Same (Entries.lookup key es) (Entries.lookup key fs) := by
  have hparts : (Json.object es).Same (.object fs) ↔
      (es.length == fs.length && sameEntries es fs) = true := Iff.rfl
  rw [hparts, Bool.and_eq_true, sameEntries_iff, beq_iff_eq]
  constructor
  · rintro ⟨hlength, hsame⟩ key
    have hsub : es.map Prod.fst ⊆ fs.map Prod.fst := by
      intro k hk
      obtain ⟨entry, hm, rfl⟩ := List.mem_map.mp hk
      obtain ⟨w, hl, _⟩ := hsame entry hm
      exact List.mem_map.mpr ⟨_, Entries.mem_of_lookup hl, rfl⟩
    have hperm : (es.map Prod.fst).Perm (fs.map Prod.fst) :=
      (List.subperm_of_subset he hsub).perm_of_length_le (by simp [hlength])
    cases hl : Entries.lookup key es with
    | some v =>
      obtain ⟨w, hw, hvw⟩ := hsame (key, v) (Entries.mem_of_lookup hl)
      rw [hw]
      exact .some hvw
    | none =>
      rw [Entries.lookup_eq_none_iff, hperm.mem_iff, ← Entries.lookup_eq_none_iff] at hl
      rw [hl]
      exact .none
  · intro hrel
    have hkey : ∀ key, key ∈ es.map Prod.fst ↔ key ∈ fs.map Prod.fst := by
      intro key
      rw [← Entries.lookup_isSome_iff, ← Entries.lookup_isSome_iff]
      have h := hrel key
      generalize Entries.lookup key es = v at h
      generalize Entries.lookup key fs = w at h
      cases h <;> simp
    have hperm : (es.map Prod.fst).Perm (fs.map Prod.fst) :=
      (List.perm_ext_iff_of_nodup he hf).mpr hkey
    refine ⟨by simpa using hperm.length_eq, fun entry hm => ?_⟩
    have h := hrel entry.1
    rw [Entries.lookup_of_mem he hm] at h
    exact rel_some_left h

/-- What one of two equal objects has under a key, the other has as equal data. -/
theorem Same.lookup {es fs : List (String × Json)} (he : (Json.object es).DistinctKeys)
    (hf : (Json.object fs).DistinctKeys) (h : (Json.object es).Same (.object fs)) {key : String}
    {v : Json} (hl : Entries.lookup key es = some v) :
    ∃ w, Entries.lookup key fs = some w ∧ v.Same w := by
  have hrel := (same_object he.keys hf.keys).mp h key
  rw [hl] at hrel
  exact rel_some_left hrel

/-- A value with distinct keys is equal data to itself. -/
theorem Same.refl {v : Json} (h : v.DistinctKeys) : v.Same v := by
  induction h with
  | null => rfl
  | bool => exact same_bool.mpr rfl
  | string => exact same_string.mpr rfl
  | number n => exact Number.sameData_iff.mpr rfl
  | array _ ih =>
    rw [same_array, List.forall₂_same]
    exact ih
  | @object entries hkeys _ ih =>
    rw [same_object hkeys hkeys]
    intro key
    cases hl : Entries.lookup key entries with
    | none => exact .none
    | some v => exact .some (ih _ (Entries.mem_of_lookup hl))

/-- Equality of data goes both ways. -/
theorem Same.symm {v w : Json} (hv : v.DistinctKeys) (hw : w.DistinctKeys) (h : v.Same w) :
    w.Same v := by
  induction hv generalizing w with
  | null => cases w <;> first | rfl | cases h
  | bool =>
    cases w with
    | bool => exact same_bool.mpr (same_bool.mp h).symm
    | _ => cases h
  | string =>
    cases w with
    | string => exact same_string.mpr (same_string.mp h).symm
    | _ => cases h
  | number n =>
    cases w with
    | number m => exact Number.sameData_iff.mpr (Number.sameData_iff.mp h).symm
    | _ => cases h
  | @array items _ ih =>
    cases w with
    | array others =>
      rw [same_array] at h ⊢
      refine List.Forall₂.flip (forall₂_imp_of_mem h fun item hi other ho hsame => ?_)
      exact ih item hi (hw.item ho) hsame
    | _ => cases h
  | @object entries hkeys _ ih =>
    cases w with
    | object others =>
      rw [same_object hkeys hw.keys] at h
      rw [same_object hw.keys hkeys]
      intro key
      have hk := h key
      cases hl : Entries.lookup key entries with
      | none =>
        rw [hl] at hk
        rw [rel_none_left hk]
        exact .none
      | some v =>
        rw [hl] at hk
        obtain ⟨other, ho, hsame⟩ := rel_some_left hk
        rw [ho]
        exact .some (ih _ (Entries.mem_of_lookup hl) (hw.lookup ho) hsame)
    | _ => cases h

/-- Equality of data carries over. -/
theorem Same.trans {u v w : Json} (hu : u.DistinctKeys) (hv : v.DistinctKeys)
    (hw : w.DistinctKeys) (h : u.Same v) (h' : v.Same w) : u.Same w := by
  induction hu generalizing v w with
  | null =>
    cases v with
    | null => exact h'
    | _ => cases h
  | bool b =>
    cases v with
    | bool c =>
      rw [same_bool.mp h]
      exact h'
    | _ => cases h
  | string b =>
    cases v with
    | string c =>
      rw [same_string.mp h]
      exact h'
    | _ => cases h
  | number n =>
    cases v with
    | number m =>
      cases w with
      | number k =>
        exact Number.sameData_iff.mpr
          ((Number.sameData_iff.mp h).trans (Number.sameData_iff.mp h'))
      | _ => cases h'
    | _ => cases h
  | @array items _ ih =>
    cases v with
    | array middle =>
      cases w with
      | array others =>
        rw [same_array] at h h' ⊢
        refine forall₂_trans_of_mem h h' fun x hx y hy z hz hxy hyz => ?_
        exact ih x hx (hv.item hy) (hw.item hz) hxy hyz
      | _ => cases h'
    | _ => cases h
  | @object entries hkeys _ ih =>
    cases v with
    | object middle =>
      cases w with
      | object others =>
        rw [same_object hkeys hv.keys] at h
        rw [same_object hv.keys hw.keys] at h'
        rw [same_object hkeys hw.keys]
        intro key
        have hk := h key
        have hk' := h' key
        cases hl : Entries.lookup key entries with
        | none =>
          rw [hl] at hk
          rw [rel_none_left hk] at hk'
          rw [rel_none_left hk']
          exact .none
        | some x =>
          rw [hl] at hk
          obtain ⟨y, hy, hxy⟩ := rel_some_left hk
          rw [hy] at hk'
          obtain ⟨z, hz, hyz⟩ := rel_some_left hk'
          rw [hz]
          exact .some (ih _ (Entries.mem_of_lookup hl) (hv.lookup hy) (hw.lookup hz) hxy hyz)
      | _ => cases h'
    | _ => cases h

end Json

end Conformance
