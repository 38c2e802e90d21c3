import Conformance.Proofs.Acceptance
import Conformance.Proofs.Rows

/-!
# How an output comes about

An accepted union has a first member that accepts, an accepted intersection has
an output of every member, and an accepted container has an output of every
child that is present. `Grounds.Inductive.holds` is the induction over all
this: what each step carries from the outputs below holds of every output.
-/

namespace Conformance

/-- Merges a row of outputs, in order, into what there is already. -/
def mergeAll (merged : Option Json) : List Json → Option (Option Json)
  | [] => some merged
  | output :: rest =>
    match mergeInto merged output with
    | .ok both => mergeAll (some both) rest
    | .error _ => none

namespace Grounds

variable {grounds : Grounds} {value : Json} {depth : Nat} {entered : List CellId}

/-- The output of a union is that of the first member that accepts. -/
theorem acceptFirst_eq_some {members : List Schema} {output : Json} :
    grounds.acceptFirst members value depth entered = some output ↔
      ∃ before member after, members = before ++ member :: after ∧
        (∀ earlier ∈ before, grounds.accept earlier value depth entered = none) ∧
        grounds.accept member value depth entered = some output := by
  induction members with
  | nil => simp [acceptFirst]
  | cons member rest ih =>
    rw [acceptFirst]
    cases hm : grounds.accept member value depth entered with
    | some first =>
      constructor
      · intro h
        cases h
        exact ⟨[], member, rest, rfl, by simp, hm⟩
      · rintro ⟨before, chosen, after, heq, hbefore, hchosen⟩
        cases before with
        | nil =>
          cases heq
          rw [← hchosen, hm]
        | cons head tail =>
          cases heq
          have := hbefore member List.mem_cons_self
          rw [hm] at this
          cases this
    | none =>
      dsimp only
      rw [ih]
      constructor
      · rintro ⟨before, chosen, after, rfl, hbefore, hchosen⟩
        refine ⟨member :: before, chosen, after, rfl, ?_, hchosen⟩
        intro earlier he
        rcases List.mem_cons.mp he with rfl | he
        · exact hm
        · exact hbefore earlier he
      · rintro ⟨before, chosen, after, heq, hbefore, hchosen⟩
        cases before with
        | nil =>
          cases heq
          rw [hm] at hchosen
          cases hchosen
        | cons head tail =>
          cases heq
          exact ⟨tail, chosen, after, rfl,
            fun earlier he => hbefore earlier (List.mem_cons_of_mem _ he), hchosen⟩

/-- A union is rejected by all its members together. -/
theorem acceptFirst_eq_none {members : List Schema} :
    grounds.acceptFirst members value depth entered = none ↔
      ∀ member ∈ members, grounds.accept member value depth entered = none := by
  induction members with
  | nil => simp [acceptFirst]
  | cons member rest ih =>
    rw [acceptFirst, List.forall_mem_cons, ← ih]
    cases grounds.accept member value depth entered <;> simp

/-- The outputs of a row of children are those of each. -/
theorem acceptChildren_eq_some {children : List Child} {outputs : List (Option Json)} :
    grounds.acceptChildren children depth = some outputs ↔
      List.Forall₂ (fun child output => grounds.acceptChild child depth = some output)
        children outputs := by
  induction children generalizing outputs with
  | nil =>
    rw [acceptChildren, List.forall₂_nil_left_iff]
    exact ⟨fun h => (Option.some.inj h).symm, fun h => by rw [h]⟩
  | cons child rest ih =>
    rw [acceptChildren, List.forall₂_cons_left_iff]
    cases hc : grounds.acceptChild child depth with
    | none => simp
    | some first =>
      cases hr : grounds.acceptChildren rest depth with
      | none =>
        simp only [reduceCtorEq, Option.some.injEq, exists_and_left, false_iff, not_exists, not_and]
        intro output _ others hothers
        rw [ih.mpr hothers] at hr
        cases hr
      | some others =>
        constructor
        · intro h
          cases h
          exact ⟨first, others, rfl, ih.mp hr, rfl⟩
        · rintro ⟨output, outputs, hfirst, hothers, rfl⟩
          rw [ih.mpr hothers] at hr
          cases hfirst
          cases hr
          rfl

/-- A row of children has outputs if every child is accepted. -/
theorem acceptChildren_isSome {children : List Child}
    (h : ∀ child ∈ children, (grounds.acceptChild child depth).isSome) :
    (grounds.acceptChildren children depth).isSome := by
  induction children with
  | nil => simp [acceptChildren]
  | cons child rest ih =>
    obtain ⟨hc, hr⟩ := List.forall_mem_cons.mp h
    obtain ⟨output, ho⟩ := Option.isSome_iff_exists.mp hc
    obtain ⟨outputs, hos⟩ := Option.isSome_iff_exists.mp (ih hr)
    simp [acceptChildren, ho, hos]

/-- Above the limit a container is accepted if every child is. -/
theorem accept_container_isSome {schema : Schema} {children : List Child}
    {assemble : List (Option Json) → Json} (hc : Container schema value children assemble)
    (hd : depth < grounds.maxDepth)
    (h : ∀ child ∈ children, (grounds.acceptChild child depth).isSome) :
    (grounds.accept schema value depth entered).isSome := by
  rw [accept_container grounds depth entered hc, if_neg (by omega), Option.isSome_map]
  exact acceptChildren_isSome h

/-- A union is accepted if some member is. -/
theorem accept_union_isSome {members : List Schema} {member : Schema} (hm : member ∈ members)
    (h : (grounds.accept member value depth entered).isSome) :
    (grounds.accept (.union members) value depth entered).isSome := by
  rw [accept, Option.isSome_iff_ne_none]
  intro hnone
  rw [acceptFirst_eq_none.mp hnone member hm] at h
  cases h

/-- The output of an intersection is merged from those of all members. -/
theorem acceptEvery_eq_some {members : List Schema} {merged : Option Json} {output : Json} :
    grounds.acceptEvery members merged value depth entered = some output ↔
      ∃ outputs all, List.Forall₂
          (fun member output => grounds.accept member value depth entered = some output)
          members outputs ∧
        mergeAll merged outputs = some all ∧ output = all.getD value := by
  induction members generalizing merged with
  | nil =>
    rw [acceptEvery]
    constructor
    · intro h
      exact ⟨[], merged, .nil, rfl, (Option.some.inj h).symm⟩
    · rintro ⟨outputs, all, hrow, hall, rfl⟩
      cases hrow
      cases hall
      rfl
  | cons member rest ih =>
    rw [acceptEvery]
    cases hm : grounds.accept member value depth entered with
    | none =>
      simp only [reduceCtorEq, false_iff]
      rintro ⟨outputs, all, hrow, _⟩
      cases hrow with
      | cons h _ =>
        rw [hm] at h
        cases h
    | some first =>
      dsimp only
      constructor
      · intro h
        cases hboth : mergeInto merged first with
        | error way =>
          rw [hboth] at h
          cases h
        | ok both =>
          rw [hboth] at h
          obtain ⟨outputs, all, hrow, hall, hout⟩ := ih.mp h
          exact ⟨first :: outputs, all, .cons hm hrow, by rw [mergeAll, hboth]; exact hall, hout⟩
      · rintro ⟨outputs, all, hrow, hall, hout⟩
        cases hrow with
        | @cons _ head _ tail hhead htail =>
          cases hm.symm.trans hhead
          rw [mergeAll] at hall
          cases hboth : mergeInto merged first with
          | error way =>
            rw [hboth] at hall
            cases hall
          | ok both =>
            rw [hboth] at hall
            exact ih.mpr ⟨tail, all, htail, hall, hout⟩

/-- What is said of an accepted value at a depth and of its output. -/
abbrev Motive := Schema → Json → Nat → List CellId → Json → Prop

/-- How the output of a child comes about: a present one is accepted one level down,
and an absent one may be absent. -/
inductive ChildOutput (grounds : Grounds) (motive : Motive) (depth : Nat) :
    Child → Option Json → Prop
  /-- A present child has an output. -/
  | present {segment : Segment} {schema : Schema} {value output : Json}
    (h : grounds.accept schema value (depth + 1) [] = some output)
    (hm : motive schema value (depth + 1) [] output) :
    ChildOutput grounds motive depth (.present segment schema value) (some output)
  /-- An absent child has none. -/
  | absent {name : String} {schema : Schema} (h : schema.absentWithin grounds.targets []) :
    ChildOutput grounds motive depth (.absent name schema) none

/-- Every way to accept a value carries the motive from the outputs that it is made
of. -/
structure Inductive (grounds : Grounds) (motive : Motive) : Prop where
  leaf : ∀ leaf value depth entered output, grounds.policy.check leaf value = .ok output →
    motive (.leaf leaf) value depth entered output
  null : ∀ inner depth entered, motive (.nullable inner) .null depth entered .null
  nullable : ∀ inner value depth entered output, ¬value.isNull →
    grounds.accept inner value depth entered = some output →
    motive inner value depth entered output →
    motive (.nullable inner) value depth entered output
  union : ∀ before member after value depth entered output,
    (∀ earlier ∈ before, grounds.accept earlier value depth entered = none) →
    grounds.accept member value depth entered = some output →
    motive member value depth entered output →
    motive (.union (before ++ member :: after)) value depth entered output
  intersection : ∀ members outputs all value depth entered,
    List.Forall₂ (fun member output => grounds.accept member value depth entered = some output ∧
      motive member value depth entered output) members outputs →
    mergeAll none outputs = some all →
    motive (.intersection members) value depth entered (all.getD value)
  reference : ∀ (r : Reference) target value depth (entered : List CellId) output,
    entered.length < maxHops ∧ r.cell ∉ entered → grounds.targets r.cell = some target →
    grounds.accept target value depth (r.cell :: entered) = some output →
    motive target value depth (r.cell :: entered) output →
    motive (.reference r) value depth entered output
  any : ∀ value depth entered, motive .any value depth entered value
  scalar : ∀ value depth entered, value.nesting = 0 → motive .json value depth entered value
  container : ∀ schema value depth entered children assemble outputs,
    Container schema value children assemble → depth < grounds.maxDepth →
    List.Forall₂ (ChildOutput grounds motive depth) children outputs →
    motive schema value depth entered (assemble outputs)

/-- A structural schema accepts a value as it is, or puts a container together again
from the outputs of its children. -/
theorem accept_structural_cases {schema : Schema} {output : Json} (hs : schema.isStructural)
    (h : grounds.accept schema value depth entered = some output) :
    (schema = .any ∨ schema = .json ∧ value.nesting = 0) ∧ output = value ∨
      ∃ children assemble outputs, Container schema value children assemble ∧
        depth < grounds.maxDepth ∧
        List.Forall₂ (fun child output => grounds.acceptChild child depth = some output)
          children outputs ∧ output = assemble outputs := by
  rw [accept_structural grounds value depth entered hs] at h
  split at h
  · next hview =>
    cases h
    exact .inl ⟨View.plain_of hs hview, rfl⟩
  · cases h
  · next children assemble _ hview =>
    split at h
    · cases h
    · next hd =>
      obtain ⟨outputs, hrow, rfl⟩ := Option.map_eq_some_iff.mp h
      exact .inr ⟨children, assemble, outputs, View.container_of hview, by omega,
        acceptChildren_eq_some.mp hrow, rfl⟩

/-- What every way to accept a value carries holds of every accepted value. -/
theorem Inductive.holds {motive : Motive} (step : grounds.Inductive motive) (schema : Schema)
    (value : Json) (depth : Nat) (entered : List CellId) (output : Json)
    (h : grounds.accept schema value depth entered = some output) :
    motive schema value depth entered output := by
  by_cases hs : schema.isStructural
  · rcases accept_structural_cases hs h with
      ⟨hplain, rfl⟩ | ⟨children, assemble, outputs, hc, hd, hrow, rfl⟩
    · rcases hplain with rfl | ⟨rfl, hscalar⟩
      · exact step.any _ depth entered
      · exact step.scalar _ depth entered hscalar
    · refine step.container schema value depth entered children assemble outputs hc hd ?_
      refine forall₂_imp_of_mem hrow fun child hm output _ ho => ?_
      have hlt := hc.nesting_lt hm
      cases child with
      | present segment schema value =>
        rw [acceptChild] at ho
        obtain ⟨inner, hinner, rfl⟩ := Option.map_eq_some_iff.mp ho
        exact .present hinner (step.holds schema value (depth + 1) [] inner hinner)
      | absent name schema =>
        rw [acceptChild] at ho
        split at ho
        · next habsent =>
          cases ho
          exact .absent habsent
        · cases ho
  · cases schema with
    | list | struct | object | record | json | any => exact absurd rfl hs
    | leaf leaf =>
      rw [accept] at h
      cases hc : grounds.policy.check leaf value with
      | error cause =>
        rw [hc] at h
        cases h
      | ok accepted =>
        rw [hc] at h
        cases h
        exact step.leaf leaf value depth entered _ hc
    | nullable inner =>
      rw [accept] at h
      split at h
      · next hnull =>
        cases value with
        | null =>
          cases h
          exact step.null inner depth entered
        | _ => simp [Json.isNull] at hnull
      · next hnull =>
        exact step.nullable inner value depth entered output hnull h
          (step.holds inner value depth entered output h)
    | union members =>
      rw [accept] at h
      obtain ⟨before, member, after, heq, hbefore, hmember⟩ := acceptFirst_eq_some.mp h
      have hm : member ∈ members := by simp [heq]
      rw [heq]
      exact step.union before member after value depth entered output hbefore hmember
        (step.holds member value depth entered output hmember)
    | intersection members =>
      rw [accept] at h
      obtain ⟨outputs, all, hrow, hall, rfl⟩ := acceptEvery_eq_some.mp h
      refine step.intersection members outputs all value depth entered ?_ hall
      exact forall₂_imp_of_mem hrow fun member hm output _ ho =>
        ⟨ho, step.holds member value depth entered output ho⟩
    | reference r =>
      by_cases henter : entered.length < maxHops ∧ r.cell ∉ entered
      · rw [accept_reference grounds value depth henter] at h
        obtain ⟨target, ht, hout⟩ := Option.bind_eq_some_iff.mp h
        exact step.reference r target value depth entered output henter ht hout
          (step.holds target value depth (r.cell :: entered) output hout)
      · rw [accept_reference_blocked grounds value depth henter] at h
        cases h
termination_by (value.nesting, maxHops - entered.length, sizeOf schema)
decreasing_by
  · exact .left _ _ hlt
  · subst_vars
    exact .right _ (.right _ (by simp))
  · subst_vars
    have := List.sizeOf_lt_of_mem hm
    exact .right _ (.right _ (by rw [Schema.union.sizeOf_spec]; omega))
  · subst_vars
    have := List.sizeOf_lt_of_mem hm
    exact .right _ (.right _ (by rw [Schema.intersection.sizeOf_spec]; omega))
  · exact .right _ (.left _ _ (by rw [List.length_cons]; omega))

end Grounds

end Conformance
