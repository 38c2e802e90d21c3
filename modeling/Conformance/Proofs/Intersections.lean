import Mathlib.Data.List.Forall2
import Conformance.Proofs.Compatible

/-!
# What an intersection accepts

An intersection accepts a value if all its members accept it with compatible outputs, and
its output is what those outputs are together. In the order of what extends what that is
the least value above the outputs, so neither the order of the members nor their
repetition matters, and a nested intersection may be taken apart.
-/

namespace Conformance

/-- Two results accept alike: with equal data, or neither of them. -/
def AcceptAlike (first second : Outcome) : Prop :=
  Option.Rel Json.Same first.toOption second.toOption

namespace Grounds

variable {grounds : Grounds} {value : Json} {depth : Nat} {entered : List CellId}

/-- Whatever a schema gives for a value at a place has distinct keys. -/
def Tidy (grounds : Grounds) (value : Json) (depth : Nat) (entered : List CellId)
    (schema : Schema) : Prop :=
  ∀ output, grounds.accept schema value depth entered = some output → output.DistinctKeys

/-- With at least one member, an intersection gives what the outputs of all its members are
merged into. -/
theorem accept_intersection_eq_some {members : List Schema} (hne : members ≠ []) {w : Json} :
    grounds.accept (.intersection members) value depth entered = some w ↔
      ∃ outputs, List.Forall₂
          (fun member output => grounds.accept member value depth entered = some output)
          members outputs ∧
        mergeAll none outputs = some (some w) := by
  rw [accept, acceptEvery_eq_some]
  constructor
  · rintro ⟨outputs, all, hrow, hall, rfl⟩
    cases all with
    | none =>
      rw [(mergeAll_eq_none hall).2, List.forall₂_nil_right_iff] at hrow
      exact absurd hrow hne
    | some m => exact ⟨outputs, hrow, hall⟩
  · rintro ⟨outputs, hrow, hall⟩
    exact ⟨outputs, some w, hrow, hall, rfl⟩

/-- The outputs of members that are tidy have distinct keys. -/
theorem Tidy.outputs {members : List Schema} {outputs : List Json}
    (h : ∀ member ∈ members, grounds.Tidy value depth entered member)
    (hrow : List.Forall₂
      (fun member output => grounds.accept member value depth entered = some output)
      members outputs) : ∀ output ∈ outputs, output.DistinctKeys := by
  intro output ho
  obtain ⟨member, hm, haccept⟩ := exists_of_forall₂_of_mem hrow.flip ho
  exact h member hm output haccept

/-- An intersection of tidy members accepts exactly if all of them do, with outputs that are
compatible in pairs. -/
theorem exists_accept_intersection {members : List Schema} (hne : members ≠ [])
    (htidy : ∀ member ∈ members, grounds.Tidy value depth entered member) :
    (∃ w, grounds.accept (.intersection members) value depth entered = some w) ↔
      ∃ outputs, List.Forall₂
          (fun member output => grounds.accept member value depth entered = some output)
          members outputs ∧ outputs.Pairwise Json.Compatible := by
  constructor
  · rintro ⟨w, hw⟩
    obtain ⟨outputs, hrow, hall⟩ := (accept_intersection_eq_some hne).mp hw
    have hout := Tidy.outputs htidy hrow
    obtain ⟨hd, hunites⟩ := mergeAll_unites hout hall
    exact ⟨outputs, hrow, pairwise_compatible hd hout hunites.all⟩
  · rintro ⟨outputs, hrow, hpairs⟩
    have hsome : outputs ≠ [] := by
      rintro rfl
      exact hne (List.forall₂_nil_right_iff.mp hrow)
    obtain ⟨w, hw⟩ := (exists_mergeAll_iff (Tidy.outputs htidy hrow) hsome).mpr hpairs
    exact ⟨w, (accept_intersection_eq_some hne).mpr ⟨outputs, hrow, hw⟩⟩

/-- What an intersection of tidy members gives is what their outputs are together. -/
theorem accept_intersection_unites {members : List Schema} {w : Json} {outputs : List Json}
    (hne : members ≠ []) (htidy : ∀ member ∈ members, grounds.Tidy value depth entered member)
    (h : grounds.accept (.intersection members) value depth entered = some w)
    (hrow : List.Forall₂
      (fun member output => grounds.accept member value depth entered = some output)
      members outputs) : w.Unites outputs := by
  obtain ⟨others, hothers, hall⟩ := (accept_intersection_eq_some hne).mp h
  -- a member has one output at most, so these are the outputs that were merged
  have hunique : Relator.RightUnique fun member output =>
      grounds.accept member value depth entered = some output :=
    fun member output other h h' => Option.some.inj (h.symm.trans h')
  have heq : outputs = others := List.right_unique_forall₂' hunique hrow hothers
  rw [heq]
  exact (mergeAll_unites (Tidy.outputs htidy hothers) hall).2

/-- An intersection of tidy members is tidy. -/
theorem Tidy.intersection {members : List Schema} (hne : members ≠ [])
    (h : ∀ member ∈ members, grounds.Tidy value depth entered member) :
    grounds.Tidy value depth entered (.intersection members) := by
  intro w hw
  obtain ⟨outputs, hrow, hall⟩ := (accept_intersection_eq_some hne).mp hw
  exact (mergeAll_unites (Tidy.outputs h hrow) hall).1

/-- What an intersection gives extends what each of its members gives. -/
theorem accept_intersection_extends {members : List Schema} {w : Json}
    (htidy : ∀ member ∈ members, grounds.Tidy value depth entered member)
    (h : grounds.accept (.intersection members) value depth entered = some w) :
    ∀ member ∈ members, ∃ output,
      grounds.accept member value depth entered = some output ∧ w.Extends output := by
  intro member hm
  have hne : members ≠ [] := List.ne_nil_of_mem hm
  obtain ⟨outputs, hrow, _⟩ := (exists_accept_intersection hne htidy).mp ⟨w, h⟩
  obtain ⟨output, ho, haccept⟩ := exists_of_forall₂_of_mem hrow hm
  exact ⟨output, haccept, (accept_intersection_unites hne htidy h hrow).all output ho⟩

/-- If one value extends what each member gives, the intersection accepts, and the value
extends what it gives. -/
theorem accept_intersection_least {members : List Schema} {u : Json} (hne : members ≠ [])
    (htidy : ∀ member ∈ members, grounds.Tidy value depth entered member)
    (hu : u.DistinctKeys) (h : ∀ member ∈ members, ∃ output,
      grounds.accept member value depth entered = some output ∧ u.Extends output) :
    ∃ w, grounds.accept (.intersection members) value depth entered = some w ∧ u.Extends w := by
  obtain ⟨outputs, hboth⟩ := exists_forall₂_of_forall_mem h
  have hrow : List.Forall₂
      (fun member output => grounds.accept member value depth entered = some output)
      members outputs := hboth.imp fun _ _ hmember => hmember.1
  have hext : ∀ output ∈ outputs, u.Extends output := by
    intro output ho
    obtain ⟨_, _, hmember⟩ := exists_of_forall₂_of_mem hboth.flip ho
    exact hmember.2
  have hout := Tidy.outputs htidy hrow
  have hpairs := pairwise_compatible hu hout hext
  obtain ⟨w, hw⟩ := (exists_accept_intersection hne htidy).mpr ⟨outputs, hrow, hpairs⟩
  have hunites := accept_intersection_unites hne htidy hw hrow
  have hsome : outputs ≠ [] := by
    rintro rfl
    exact hne (List.forall₂_nil_right_iff.mp hrow)
  exact ⟨w, hw, hunites.least hout hu (Tidy.intersection hne htidy w hw) hsome hext⟩

/-- Schemas of which each accepts what the other accepts, with an output that the output
of the other extends, accept alike. -/
theorem accept_alike_of_extends {first second : Schema}
    (hfirst : grounds.Tidy value depth entered first)
    (hsecond : grounds.Tidy value depth entered second)
    (h : ∀ w, grounds.accept first value depth entered = some w →
      ∃ v, grounds.accept second value depth entered = some v ∧ w.Extends v)
    (h' : ∀ v, grounds.accept second value depth entered = some v →
      ∃ w, grounds.accept first value depth entered = some w ∧ v.Extends w) :
    Option.Rel Json.Same (grounds.accept first value depth entered)
      (grounds.accept second value depth entered) := by
  cases hf : grounds.accept first value depth entered with
  | some w =>
    obtain ⟨v, hv, hwv⟩ := h w hf
    obtain ⟨other, ho, hvw⟩ := h' v hv
    cases hf.symm.trans ho
    rw [hv]
    exact .some (hwv.antisymm (hfirst w hf) (hsecond v hv) hvw)
  | none =>
    cases hs : grounds.accept second value depth entered with
    | none => exact .none
    | some v =>
      obtain ⟨w, hw, _⟩ := h' v hs
      cases hf.symm.trans hw

/-- Intersections with the same members, in whatever order and however often, accept
alike. -/
theorem accept_intersection_congr {members others : List Schema} (hne : members ≠ [])
    (htidy : ∀ member ∈ members, grounds.Tidy value depth entered member)
    (h : ∀ member, member ∈ members ↔ member ∈ others) :
    Option.Rel Json.Same (grounds.accept (.intersection members) value depth entered)
      (grounds.accept (.intersection others) value depth entered) := by
  have htidy' : ∀ member ∈ others, grounds.Tidy value depth entered member :=
    fun member hm => htidy member ((h member).mpr hm)
  have hne' : others ≠ [] := by
    obtain ⟨member, hm⟩ := List.exists_mem_of_ne_nil members hne
    exact List.ne_nil_of_mem ((h member).mp hm)
  have hwhole := Tidy.intersection hne htidy
  have hwhole' := Tidy.intersection hne' htidy'
  refine accept_alike_of_extends hwhole hwhole' (fun w hw => ?_) (fun v hv => ?_)
  · refine accept_intersection_least hne' htidy' (hwhole w hw) fun member hm => ?_
    exact accept_intersection_extends htidy hw member ((h member).mpr hm)
  · refine accept_intersection_least hne htidy (hwhole' v hv) fun member hm => ?_
    exact accept_intersection_extends htidy' hv member ((h member).mp hm)

/-- An intersection among the members of another one may be replaced by its own members. -/
theorem accept_intersection_flatten {before inner after : List Schema} (hne : inner ≠ [])
    (htidy : ∀ member ∈ before ++ inner ++ after, grounds.Tidy value depth entered member) :
    Option.Rel Json.Same
      (grounds.accept (.intersection (before ++ .intersection inner :: after)) value depth entered)
      (grounds.accept (.intersection (before ++ inner ++ after)) value depth entered) := by
  have hinner : ∀ member ∈ inner, grounds.Tidy value depth entered member :=
    fun member hm => htidy member (by simp [hm])
  have hnested := Tidy.intersection hne hinner
  have htidy' : ∀ member ∈ before ++ .intersection inner :: after,
      grounds.Tidy value depth entered member := by
    intro member hm
    rcases List.mem_append.mp hm with hm | hm
    · exact htidy member (by simp [hm])
    · rcases List.mem_cons.mp hm with rfl | hm
      · exact hnested
      · exact htidy member (by simp [hm])
  have hflat : before ++ inner ++ after ≠ [] := by simp [hne]
  have houter : before ++ .intersection inner :: after ≠ [] := by simp
  have hwhole := Tidy.intersection houter htidy'
  have hwhole' := Tidy.intersection hflat htidy
  refine accept_alike_of_extends hwhole hwhole' (fun w hw => ?_) (fun v hv => ?_)
  · have hmembers := accept_intersection_extends htidy' hw
    refine accept_intersection_least hflat htidy (hwhole w hw) fun member hm => ?_
    rcases List.mem_append.mp hm with hm | hm
    · rcases List.mem_append.mp hm with hm | hm
      · exact hmembers member (by simp [hm])
      · -- the output extends that of the nested intersection, which extends that of the member
        obtain ⟨m, hm', hwm⟩ := hmembers (.intersection inner) (by simp)
        obtain ⟨output, ho, hmo⟩ := accept_intersection_extends hinner hm' member hm
        exact ⟨output, ho, hwm.trans (hwhole w hw) (hnested m hm') (hinner member hm output ho) hmo⟩
    · exact hmembers member (by simp [hm])
  · have hmembers := accept_intersection_extends htidy hv
    refine accept_intersection_least houter htidy' (hwhole' v hv) fun member hm => ?_
    rcases List.mem_append.mp hm with hm | hm
    · exact hmembers member (by simp [hm])
    · rcases List.mem_cons.mp hm with rfl | hm
      · exact accept_intersection_least hne hinner (hwhole' v hv) fun member hm =>
          hmembers member (by simp [hm])
      · exact hmembers member (by simp [hm])

end Grounds

/-- Checks from one session accept alike if the schemas are accepted alike without one. -/
theorem acceptAlike_of_accept {rules : Rules} {first second : Schema} {value : Json}
    {here : Position} {session : Session}
    (h : Option.Rel Json.Same
      ((rules.grounds session.store).accept first value here.path.length here.entered)
      ((rules.grounds session.store).accept second value here.path.length here.entered)) :
    AcceptAlike (check rules first value here session).1
      (check rules second value here session).1 := by
  obtain ⟨hfirst, _⟩ := check_gives rules first value here session
  obtain ⟨hsecond, _⟩ := check_gives rules second value here session
  rw [AcceptAlike, hfirst, hsecond]
  exact h

/-- Checks of a row of schemas from one session give what is accepted without one. -/
theorem forall₂_check_iff {rules : Rules} {members : List Schema} {value : Json}
    {here : Position} {session : Session} {outputs : List Json} :
    List.Forall₂ (fun member output => (check rules member value here session).1 = .ok output)
        members outputs ↔
      List.Forall₂ (fun member output => (rules.grounds session.store).accept member value
        here.path.length here.entered = some output) members outputs := by
  have hone := fun member => (check_gives rules member value here session).ok_iff
  constructor
  · exact List.Forall₂.imp fun member output => (hone member output).mp
  · exact List.Forall₂.imp fun member output => (hone member output).mpr

/-- An intersection accepts a value exactly if all its members accept it and their outputs
are compatible in pairs, and its output is what those are together. So it accepts alike if
its members are permuted, if a nested intersection is replaced by its own members, and if a
member is repeated. -/
theorem intersection_unites (rules : Rules) (members : List Schema) (value : Json)
    (here : Position) (session : Session) (hne : members ≠ []) (hd : value.DistinctKeys)
    (hpolicy : rules.policy.KeepsKeys)
    (hfields : (Schema.intersection members).DistinctFields session.store.target?) :
    ((∃ w, (check rules (.intersection members) value here session).1 = .ok w) ↔
      ∃ outputs, List.Forall₂
          (fun member output => (check rules member value here session).1 = .ok output)
          members outputs ∧ outputs.Pairwise Json.Compatible) ∧
    (∀ w outputs, (check rules (.intersection members) value here session).1 = .ok w →
      List.Forall₂ (fun member output => (check rules member value here session).1 = .ok output)
        members outputs → w.Unites outputs) ∧
    (∀ others, members.Perm others →
      AcceptAlike (check rules (.intersection members) value here session).1
        (check rules (.intersection others) value here session).1) ∧
    (∀ before inner after, inner ≠ [] → members = before ++ .intersection inner :: after →
      AcceptAlike (check rules (.intersection members) value here session).1
        (check rules (.intersection (before ++ inner ++ after)) value here session).1) ∧
    (∀ before member after, member ∈ members → members = before ++ after →
      AcceptAlike (check rules (.intersection members) value here session).1
        (check rules (.intersection (before ++ member :: after)) value here session).1) := by
  have hreaches : ∀ member ∈ members,
      (Schema.intersection members).Reaches session.store.target? member :=
    fun member hm => Schema.Reaches.root.part hm
  have htidy : ∀ member,
      (Schema.intersection members).Reaches session.store.target? member →
      (rules.grounds session.store).Tidy value here.path.length here.entered member :=
    fun member hr output h => Grounds.accept_keepsKeys hpolicy hfields hr hd h
  have hmembers : ∀ member ∈ members,
      (rules.grounds session.store).Tidy value here.path.length here.entered member :=
    fun member hm => htidy member (hreaches member hm)
  have hwhole := (check_gives rules (.intersection members) value here session).ok_iff
  refine ⟨?_, ?_, ?_, ?_, ?_⟩
  · simp only [hwhole, forall₂_check_iff]
    exact Grounds.exists_accept_intersection hne hmembers
  · intro w outputs hw hrow
    exact Grounds.accept_intersection_unites hne hmembers ((hwhole w).mp hw)
      (forall₂_check_iff.mp hrow)
  · intro others hperm
    exact acceptAlike_of_accept
      (Grounds.accept_intersection_congr hne hmembers fun member => hperm.mem_iff)
  · rintro before inner after hinner rfl
    refine acceptAlike_of_accept (Grounds.accept_intersection_flatten hinner fun member hm => ?_)
    have hnested := hreaches (.intersection inner) (by simp)
    have hcases : member ∈ before ∨ member ∈ inner ∨ member ∈ after := by simpa using hm
    rcases hcases with hm | hm | hm
    · exact hmembers member (by simp [hm])
    · exact htidy member (hnested.part hm)
    · exact hmembers member (by simp [hm])
  · rintro before member after hm rfl
    refine acceptAlike_of_accept (Grounds.accept_intersection_congr hne hmembers fun other => ?_)
    simp only [List.mem_append, List.mem_cons] at hm ⊢
    constructor
    · rintro (h | h) <;> simp [h]
    · rintro (h | rfl | h)
      · exact .inl h
      · exact hm
      · exact .inr h

/-- A counted object that keeps all of its entries and has a name among them. -/
def countedName : List Schema :=
  [.struct [⟨"count", .leaf .int, none, false⟩],
    .intersection [.record .any, .struct [⟨"name", .leaf .string, none, false⟩]]]

/-- The count is united with the name, and the nested intersection may be taken apart. -/
theorem countedName_unites :
    (Json.object [("count", .number (.int 1 rfl)), ("name", .string "x")]).Unites
        [.object [("count", .number (.int 1 rfl))],
          .object [("name", .string "x"), ("count", .number (.int 1 rfl))]] ∧
      AcceptAlike
        (check { policy := .nonStrict } (.intersection countedName)
          (.object [("name", .string "x"), ("count", .number (.int 1 rfl))]) .root ⟨.empty, #[]⟩).1
        (check { policy := .nonStrict } (.intersection
            [.struct [⟨"count", .leaf .int, none, false⟩], .record .any,
              .struct [⟨"name", .leaf .string, none, false⟩]])
          (.object [("name", .string "x"), ("count", .number (.int 1 rfl))]) .root
          ⟨.empty, #[]⟩).1 := by
  have hd : (Json.object
      [("name", .string "x"), ("count", .number (.int 1 rfl))]).DistinctKeys := by
    refine .object (by decide) fun entry he => ?_
    simp only [List.mem_cons, List.not_mem_nil, or_false] at he
    rcases he with rfl | rfl
    · exact .string _
    · exact .number _
  have hfields : (Schema.intersection countedName).DistinctFields Store.empty.target? := by
    intro schema fields hr hf
    have hmem : schema ∈ [.intersection countedName, .struct [⟨"count", .leaf .int, none, false⟩],
        .intersection [.record .any, .struct [⟨"name", .leaf .string, none, false⟩]],
        .record .any, .struct [⟨"name", .leaf .string, none, false⟩], .any, .leaf .int,
        .leaf .string] := by
      refine hr.mem_of_closed (P := (· ∈ _)) (by simp) ?_ ?_
      · intro whole hw part hp
        simp only [List.mem_cons, List.not_mem_nil, or_false] at hw
        rcases hw with rfl | rfl | rfl | rfl | rfl | rfl | rfl | rfl <;>
          simp only [countedName, Schema.parts, List.map_cons, List.map_nil, List.mem_cons,
            List.not_mem_nil, or_false] at hp
        · rcases hp with rfl | rfl <;> simp
        · rcases hp with rfl; simp
        · rcases hp with rfl | rfl <;> simp
        · rcases hp with rfl; simp
        · rcases hp with rfl; simp
      · intro r hr
        simp [countedName] at hr
    simp only [List.mem_cons, List.not_mem_nil, or_false] at hmem
    rcases hmem with rfl | rfl | rfl | rfl | rfl | rfl | rfl | rfl <;> cases hf <;> decide
  obtain ⟨_, hunites, _, hflatten, _⟩ := intersection_unites { policy := .nonStrict } countedName
    _ .root ⟨.empty, #[]⟩ (List.cons_ne_nil _ _) hd PolicyKind.nonStrict.policy_flat.keepsKeys
    hfields
  have haccept := fun schema => (check_gives { policy := .nonStrict } schema (.object
    [("name", .string "x"), ("count", .number (.int 1 rfl))]) .root ⟨.empty, #[]⟩).ok_iff
  refine ⟨hunites _ _ ((haccept _ _).mpr (by cbv)) ?_, ?_⟩
  · exact .cons ((haccept _ _).mpr (by cbv)) (.cons ((haccept _ _).mpr (by cbv)) .nil)
  · exact hflatten [_] [_, _] [] (List.cons_ne_nil _ _) rfl

end Conformance
