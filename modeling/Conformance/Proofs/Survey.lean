import Mathlib.Data.List.Forall2
import Conformance.Proofs.Truthful

/-!
# Where rejections come from

A check comes to places: it is called for a schema and a value at a position, and it calls
itself for members, targets and children. A rejection that is reported, or carried by one
that is, was raised at such a place, and the constructors of `Raised` are all the reasons
to raise one there. So what is reported can be found out place by place, and what every
call has in common is an induction over `Visits`.
-/

namespace Conformance

/-- One call of a check. -/
structure Place where
  /-- The rules, which report only one rejection inside a union. -/
  rules : Rules
  /-- What the value has to conform to. -/
  schema : Schema
  /-- The value that is checked. -/
  value : Json
  /-- Where the value lies, and which references are being followed there. -/
  here : Position

/-- The places that a check comes to from a start, as far as it gets. -/
inductive Visits (targets : Targets) (start : Place) : Place → Prop
  /-- The check starts there. -/
  | start : Visits targets start start
  /-- A value that is not null has to meet the schema inside a nullable one. -/
  | inner {rules : Rules} {inner : Schema} {value : Json} {here : Position}
    (h : Visits targets start ⟨rules, .nullable inner, value, here⟩) (hn : ¬value.isNull) :
    Visits targets start ⟨rules, inner, value, here⟩
  /-- The members of a union are tried for their first rejection. -/
  | tried {rules : Rules} {members : List Schema} {member : Schema} {value : Json}
    {here : Position} (h : Visits targets start ⟨rules, .union members, value, here⟩)
    (hm : member ∈ members) : Visits targets start ⟨rules.failFast, member, value, here⟩
  /-- All members of an intersection are checked. -/
  | every {rules : Rules} {members : List Schema} {member : Schema} {value : Json}
    {here : Position} (h : Visits targets start ⟨rules, .intersection members, value, here⟩)
    (hm : member ∈ members) : Visits targets start ⟨rules, member, value, here⟩
  /-- A reference that may be followed leads to its target. -/
  | target {rules : Rules} {r : Reference} {target : Schema} {value : Json} {here : Position}
    (h : Visits targets start ⟨rules, .reference r, value, here⟩) (he : here.mayEnter r.cell)
    (ht : targets r.cell = some target) :
    Visits targets start ⟨rules, target, value, here.enter r.cell⟩
  /-- Above the depth limit the children of a container are checked. -/
  | child {rules : Rules} {schema part : Schema} {value item : Json} {here : Position}
    {children : List Child} {assemble : List (Option Json) → Json} {segment : Segment}
    (h : Visits targets start ⟨rules, schema, value, here⟩)
    (hc : Container schema value children assemble) (hd : here.path.length < rules.maxDepth)
    (hm : .present segment part item ∈ children) :
    Visits targets start ⟨rules, part, item, here.child segment⟩

/-- What the check of a place itself raises, as against the checks that it calls. -/
inductive Raised (targets : Targets) : Place → Rejection → Prop
  /-- The policy refuses a leaf with a cause, which may carry others. -/
  | refused {rules : Rules} {leaf : Leaf} {value : Json} {here : Position} {cause : Cause}
    {inner : Rejection} (h : rules.policy.check leaf value = .error cause)
    (hc : Rejection.Carries ⟨here.path, cause⟩ inner) :
    Raised targets ⟨rules, .leaf leaf, value, here⟩ inner
  /-- The value is not the container that the schema expects. -/
  | mismatch {rules : Rules} {schema : Schema} {value : Json} {here : Position}
    {expected : String} (h : View.of schema value = .mismatch expected) :
    Raised targets ⟨rules, schema, value, here⟩
      ⟨here.path, .shapeMismatch expected value.kind⟩
  /-- The container lies at the depth limit. -/
  | deep {rules : Rules} {schema : Schema} {value : Json} {here : Position}
    {children : List Child} {assemble : List (Option Json) → Json}
    (hc : Container schema value children assemble) (hd : rules.maxDepth ≤ here.path.length) :
    Raised targets ⟨rules, schema, value, here⟩ ⟨here.path, .depthExceeded rules.maxDepth⟩
  /-- A field is absent that may not be. -/
  | missing {rules : Rules} {schema part : Schema} {value : Json} {here : Position}
    {children : List Child} {assemble : List (Option Json) → Json} {name : String}
    (hc : Container schema value children assemble) (hd : here.path.length < rules.maxDepth)
    (hm : .absent name part ∈ children) (ha : part.absentWithin targets [] = false) :
    Raised targets ⟨rules, schema, value, here⟩
      ⟨here.path ++ [.key name], .missingField name⟩
  /-- No member of a union accepts. -/
  | noMember {rules : Rules} {members : List Schema} {value : Json} {here : Position}
    {expected : String} {attempts : List Rejection} :
    Raised targets ⟨rules, .union members, value, here⟩
      ⟨here.path, .noMemberMatched expected attempts⟩
  /-- A member of an intersection rejects. -/
  | memberFailed {rules : Rules} {members : List Schema} {value : Json} {here : Position}
    {index : Nat} {causes : Report} :
    Raised targets ⟨rules, .intersection members, value, here⟩
      ⟨here.path, .memberFailed index causes⟩
  /-- The output of a member differs from what the earlier outputs were merged into. -/
  | conflict {rules : Rules} {before after : List Schema} {member : Schema} {value : Json}
    {here : Position} {outputs : List Json} {previous output : Json} {way : Path}
    (hrow : List.Forall₂ (fun member output => Grounds.accept
      ⟨rules.policy, rules.maxDepth, targets⟩ member value here.path.length here.entered =
        some output) before outputs)
    (hall : mergeAll none outputs = some (some previous))
    (haccept : Grounds.accept ⟨rules.policy, rules.maxDepth, targets⟩ member value
      here.path.length here.entered = some output)
    (hmerge : mergeOutputs previous output = .error way) :
    Raised targets ⟨rules, .intersection (before ++ member :: after), value, here⟩
      ⟨here.path ++ way, .conflict before.length⟩
  /-- A reference leads nowhere. -/
  | nowhere {rules : Rules} {r : Reference} {value : Json} {here : Position}
    (he : here.mayEnter r.cell) (ht : targets r.cell = none) :
    Raised targets ⟨rules, .reference r, value, here⟩ ⟨here.path, .unresolvedReference⟩
  /-- A reference may not be followed. -/
  | blocked {rules : Rules} {r : Reference} {value : Json} {here : Position}
    (he : ¬here.mayEnter r.cell) :
    Raised targets ⟨rules, .reference r, value, here⟩ ⟨here.path, .cyclicReference⟩

/-- Whatever a rejection carries was raised at a place that the check comes to. -/
def Found (targets : Targets) (start : Place) (rejection : Rejection) : Prop :=
  ∀ inner, rejection.Carries inner → ∃ place, Visits targets start place ∧
    Raised targets place inner

/-- A child of a container above the depth limit that the check comes to. -/
def Asked (targets : Targets) (start : Place) (rules : Rules) (here : Position)
    (child : Child) : Prop :=
  ∃ schema value children assemble, Visits targets start ⟨rules, schema, value, here⟩ ∧
    Container schema value children assemble ∧ here.path.length < rules.maxDepth ∧
    child ∈ children

/-- In every function of a check that a start comes to, all that is reported can be
found. -/
def survey (targets : Targets) (start : Place) : Walk where
  ofSchema rules schema value here := ∀ session : Session, session.store.target? = targets →
    Visits targets start ⟨rules, schema, value, here⟩ →
    Reports (Found targets start) (check rules schema value here session).1
  ofChild rules child here := ∀ session : Session, session.store.target? = targets →
    Asked targets start rules here child →
    Reports (Found targets start) (checkChild rules child here session).1
  ofChildren rules children here := ∀ session : Session, session.store.target? = targets →
    (∀ child ∈ children, Asked targets start rules here child) →
    Reports (Found targets start) (checkChildren rules children here session).1
  ofMembers rules index members value here := ∀ (session : Session) (attempts : List Rejection),
    session.store.target? = targets →
    (∀ member ∈ members, Visits targets start ⟨rules, member, value, here⟩) →
    (checkMembers rules index members value here session).1 = .error attempts →
    ∀ attempt ∈ attempts, Found targets start attempt
  ofEvery rules index members merged value here := ∀ (session : Session) (before : List Schema)
    (outputs : List Json), session.store.target? = targets →
    Visits targets start ⟨rules, .intersection (before ++ members), value, here⟩ →
    index = before.length →
    List.Forall₂ (fun member output => Grounds.accept
      ⟨rules.policy, rules.maxDepth, targets⟩ member value here.path.length here.entered =
        some output) before outputs →
    mergeAll none outputs = some merged →
    Reports (Found targets start) (checkEvery rules index members merged value here session).1

section Steps

variable {targets : Targets} {start : Place} {α : Type}

/-- What a place raises is found if it carries nothing else. -/
theorem Reports.found {place : Place} {path : Path} {cause : Cause}
    (hv : Visits targets start place) (hr : Raised targets place ⟨path, cause⟩)
    (halone : ∀ inner, Rejection.Carries ⟨path, cause⟩ inner → inner = ⟨path, cause⟩) :
    Reports (Found targets start) (.error (.singleton ⟨path, cause⟩) : Except Report α) := by
  refine .one fun inner hi => ?_
  rw [halone inner hi]
  exact ⟨place, hv, hr⟩

/-- One more output is merged into what the others were merged into. -/
theorem mergeAll_append (merged : Option Json) (outputs more : List Json) :
    mergeAll merged (outputs ++ more) =
      (mergeAll merged outputs).bind fun all => mergeAll all more := by
  induction outputs generalizing merged with
  | nil => rfl
  | cons output rest ih =>
    rw [List.cons_append, mergeAll, mergeAll]
    cases mergeInto merged output with
    | error way => rfl
    | ok both => exact ih (some both)

theorem survey_inductive : (survey targets start).Inductive where
  leaf rules leaf value here session hs hv := by
    rw [check_leaf]
    cases hcheck : rules.policy.check leaf value with
    | ok output => exact .ok output
    | error cause => exact .one fun inner hi => ⟨_, hv, .refused hcheck hi⟩
  null rules inner value here hnull session hs hv := by
    rw [check_nullable_null rules value here session inner hnull]
    exact .ok _
  nullable rules inner value here hnull ih session hs hv := by
    rw [check_nullable rules value here session inner hnull]
    exact ih session hs (hv.inner hnull)
  union rules members value here ih session hs hv := by
    have hmembers := ih session
    rw [check_union]
    rcases hm : checkMembers rules.failFast 0 members value here session with
      ⟨attempts | output, later⟩ <;> rw [hm] at hmembers
    · have hattempts := hmembers attempts hs (fun member hm => hv.tried hm) rfl
      refine .one fun inner hi => ?_
      cases hi with
      | self => exact ⟨_, hv, .noMember⟩
      | attempt ha hi => exact hattempts _ ha inner hi
    · exact .ok output
  intersection rules members value here ih session hs hv := by
    rw [check_intersection]
    exact ih session [] [] hs hv rfl .nil rfl
  followed rules r value here he ih session hs hv := by
    obtain ⟨later, hfetch, hkeep⟩ := Session.onStore_fetch? session r.cell
    rw [check_reference rules value here session he, hfetch, hs]
    cases htarget : targets r.cell with
    | none => exact .found hv (.nowhere he htarget) fun inner hi => by cases hi; rfl
    | some target => exact ih target later (hkeep.trans hs) (hv.target he htarget)
  blocked rules r value here he session hs hv := by
    rw [check_reference_blocked rules value here session he]
    exact .found hv (.blocked he) fun inner hi => by cases hi; rfl
  plain rules schema value here hstructural hview session hs hv := by
    rw [check_plain rules value here session hstructural hview]
    exact .ok value
  mismatch rules schema value here expected hview session hs hv := by
    rw [check_mismatch rules value here session hview]
    exact .found hv (.mismatch hview) fun inner hi => by cases hi; rfl
  deep rules schema value here children assemble hc hd session hs hv := by
    rw [check_deep hc hd]
    exact .found hv (.deep hc hd) fun inner hi => by cases hi; rfl
  container rules schema value here children assemble hc hd ih session hs hv :=
    .container hc hd (ih session hs fun child hm =>
      ⟨schema, value, children, assemble, hv, hc, by omega, hm⟩)
  present rules segment schema value here ih session hs hasked := by
    obtain ⟨whole, _, _, _, hv, hc, hd, hm⟩ := hasked
    exact .present (ih session hs (hv.child hc hd hm))
  absent rules name schema here session hs hasked := by
    obtain ⟨whole, _, _, _, hv, hc, hd, hm⟩ := hasked
    obtain ⟨later, hrun, _⟩ := schema.onStore_acceptsAbsent session
    rw [checkChild_absent, hrun, hs]
    cases ha : schema.absentWithin targets [] with
    | true => exact .ok _
    | false => exact .found hv (.missing hc hd hm ha) fun inner hi => by cases hi; rfl
  noChildren rules here session hs hasked := by
    rw [checkChildren_nil]
    exact .ok _
  moreChildren rules child rest here ihc ihr session hs hasked := by
    obtain ⟨hfirst, hrest⟩ := List.forall_mem_cons.mp hasked
    exact .moreChildren (ihc session hs hfirst) fun later hkeep => ihr later (hkeep.trans hs) hrest
  noMembers rules index value here session attempts hs hv hrun := by
    rw [checkMembers_nil] at hrun
    cases hrun
    exact fun attempt ha => by cases ha
  moreMembers rules index member rest value here ihm ihr session attempts hs hv hrun := by
    obtain ⟨hfirst, hrest⟩ := List.forall_mem_cons.mp hv
    have hmember := ihm session hs hfirst
    obtain ⟨_, hkeep⟩ := check_gives rules member value here session
    rw [checkMembers_cons] at hrun
    rcases hc : check rules member value here session with ⟨report | output, later⟩ <;>
      rw [hc] at hrun hmember hkeep <;> dsimp only at hrun
    · have hothers := fun others => ihr (Session.record (.memberRejected index report.head) later).2
        others (hkeep.trans hs) hrest
      rcases hm : checkMembers rules (index + 1) rest value here
          (Session.record (.memberRejected index report.head) later).2 with
        ⟨others | output, last⟩ <;>
        rw [hm] at hrun hothers <;> cases hrun
      exact List.forall_mem_cons.mpr ⟨hmember report rfl _ List.mem_cons_self, hothers others rfl⟩
    · cases hrun
  everyDone rules index merged value here session before outputs hs hv hindex hrow hall := by
    rw [checkEvery_nil]
    exact .ok _
  everyMore rules index member rest merged value here ihm ihr session before outputs hs hv
      hindex hrow hall := by
    have hmember := ihm session hs (hv.every (by simp))
    obtain ⟨hgives, hkeep⟩ := check_gives rules member value here session
    rw [Rules.grounds, hs] at hgives
    rw [checkEvery_cons]
    rcases hc : check rules member value here session with ⟨causes | output, later⟩ <;>
      rw [hc] at hmember hgives hkeep
    · refine .one fun inner hi => ?_
      cases hi with
      | self => exact ⟨_, hv, .memberFailed⟩
      | cause hm hi => exact hmember causes rfl _ hm inner hi
    · have haccept := hgives.symm
      dsimp only
      cases hinto : mergeInto merged output with
      | error way =>
        cases merged with
        | none => cases hinto
        | some previous =>
          rw [hindex]
          exact .found hv (.conflict hrow hall haccept hinto) fun inner hi => by cases hi; rfl
      | ok both =>
        refine ihr both later (before ++ [member]) (outputs ++ [output]) (hkeep.trans hs)
          ?_ ?_ ?_ ?_
        · rw [List.append_assoc]
          exact hv
        · rw [List.length_append, hindex]
          rfl
        · exact List.rel_append hrow (.cons haccept .nil)
        · rw [mergeAll_append, hall, Option.bind_some, mergeAll, hinto]
          rfl

end Steps

/-- Every rejection that a check reports, and every one that it carries, was raised at a
place that the check comes to. -/
theorem check_found (rules : Rules) (schema : Schema) (value : Json) (here : Position)
    (session : Session) :
    Reports (Found session.store.target? ⟨rules, schema, value, here⟩)
      (check rules schema value here session).1 :=
  survey_inductive.holds rules schema value here session rfl .start

/-- A child lies one step further from the root. -/
theorem Position.length_child (here : Position) (segment : Segment) :
    (here.child segment).path.length = here.path.length + 1 := by
  rw [Position.child, List.length_append, List.length_singleton]

namespace Visits

variable {targets : Targets} {start place : Place}

/-- All places go by one policy. -/
theorem policy (h : Visits targets start place) : place.rules.policy = start.rules.policy := by
  induction h with
  | start => rfl
  | inner _ _ ih | tried _ _ ih | every _ _ ih | target _ _ _ ih | child _ _ _ _ ih => exact ih

/-- All places go by one depth limit. -/
theorem maxDepth (h : Visits targets start place) :
    place.rules.maxDepth = start.rules.maxDepth := by
  induction h with
  | start => rfl
  | inner _ _ ih | tried _ _ ih | every _ _ ih | target _ _ _ ih | child _ _ _ _ ih => exact ih

/-- No place lies beyond the depth limit if the start does not. -/
theorem length_le (h : Visits targets start place)
    (hstart : start.here.path.length ≤ start.rules.maxDepth) :
    place.here.path.length ≤ start.rules.maxDepth := by
  induction h with
  | start => exact hstart
  | inner _ _ ih | tried _ _ ih | every _ _ ih | target _ _ _ ih => exact ih
  | child hv _ hd _ _ =>
    have hlimit := hv.maxDepth
    rw [Position.length_child]
    dsimp only at hlimit
    omega

/-- A place that lies deeper has a value that nests less deeply. -/
theorem nesting_le (h : Visits targets start place) :
    place.value.nesting + place.here.path.length ≤
      start.value.nesting + start.here.path.length := by
  induction h with
  | start => exact Nat.le_refl _
  | inner _ _ ih | tried _ _ ih | every _ _ ih | target _ _ _ ih => exact ih
  | child _ hc _ hm ih =>
    have hsmaller := hc.nesting_lt hm
    rw [Child.nesting] at hsmaller
    rw [Position.length_child]
    dsimp only at ih ⊢
    omega

/-- The values at all places have distinct keys if the value at the start has. -/
theorem distinctKeys (h : Visits targets start place) (hstart : start.value.DistinctKeys) :
    place.value.DistinctKeys := by
  induction h with
  | start => exact hstart
  | inner _ _ ih | tried _ _ ih | every _ _ ih | target _ _ _ ih => exact ih
  | child _ hc _ hm ih => exact (hc.within ih hm).2

/-- A check comes to schemas in the graph of the schema that it starts with. -/
theorem reaches (h : Visits targets start place) :
    Schema.Reaches targets start.schema place.schema := by
  induction h with
  | start => exact .root
  | inner _ _ ih => exact ih.part (List.mem_singleton_self _)
  | tried _ hm ih | every _ hm ih => exact ih.part hm
  | target _ _ ht ih => exact ih.target ht
  | child _ hc _ hm ih => exact ih.child hc hm

end Visits

/-- A policy raises a rejection for a leaf at a path: with the cause for which it refuses the
value, the rejection of the path is this one or carries it. -/
def Policy.Raises (policy : Policy) (leaf : Leaf) (value : Json) (path : Path)
    (inner : Rejection) : Prop :=
  ∃ cause, policy.check leaf value = .error cause ∧ Rejection.Carries ⟨path, cause⟩ inner

/-- The policy raises a rejection where the check comes to a leaf, for the value that lies
there. -/
def RaisedByPolicy (targets : Targets) (start : Place) (inner : Rejection) : Prop :=
  ∃ rules leaf value here, Visits targets start ⟨rules, .leaf leaf, value, here⟩ ∧
    start.rules.policy.Raises leaf value here.path inner

/-- What a built-in policy raises is its own refusal of the value. -/
theorem PolicyKind.refusal_of_raises (kind : PolicyKind) {leaf : Leaf} {value : Json} {path : Path}
    {inner : Rejection} (h : kind.policy.Raises leaf value path inner) :
    Refusal value inner.cause := by
  obtain ⟨cause, hcheck, hcarries⟩ := h
  have hrefusal := PolicyKind.refusal hcheck
  rw [hrefusal.carries hcarries]
  exact hrefusal

/-- A refusal of the policy at a place that the check comes to is raised by the policy. -/
theorem Visits.raisedByPolicy {targets : Targets} {start : Place} {rules : Rules} {leaf : Leaf}
    {value : Json} {here : Position} {cause : Cause} {inner : Rejection}
    (hv : Visits targets start ⟨rules, .leaf leaf, value, here⟩)
    (h : rules.policy.check leaf value = .error cause)
    (hc : Rejection.Carries ⟨here.path, cause⟩ inner) : RaisedByPolicy targets start inner := by
  have hpolicy := hv.policy
  dsimp only at hpolicy
  rw [hpolicy] at h
  exact ⟨rules, leaf, value, here, hv, cause, h, hc⟩

end Conformance
