import Mathlib.Order.WellFounded
import Conformance.Proofs.Survey

/-!
# The calls of a check

A check calls itself for what is inside a nullable schema, for members, for the target of
a reference and for children. The calls do not go on for ever, whatever the references
lead to, however many of them there are, and without the depth limit: a child nests less
deeply than its container, a reference uses up one of finitely many hops, and any other
call is for a proper part of the schema. Whether absence is accepted is found out by calls
of the same kind, for one place of the value.

An equation of a recursive function that leaves its calls open shows what the function
looks at. If it looks at the calls alone and they end, it has one solution, the function.
-/

namespace Conformance

/-- A recursive function runs by calls: it solves an equation that looks at the calls alone,
and no calls go on for ever. -/
structure RunsBy {α β : Type} (Calls : α → α → Prop) (step : (α → β) → α → β)
    (run : α → β) : Prop where
  /-- Calls within calls end. -/
  wellFounded : WellFounded fun inner outer => Calls outer inner
  /-- The function is given by what the calls give. -/
  equation : ∀ a, run a = step run a
  /-- A step does not depend on anything but the calls. -/
  looksAtCalls : ∀ a f g, (∀ b, Calls a b → f b = g b) → step f a = step g a

/-- Where calls end, their equation has one solution. -/
theorem RunsBy.unique {α β : Type} {Calls : α → α → Prop} {step : (α → β) → α → β}
    {run f : α → β} (h : RunsBy Calls step run) (hf : ∀ a, f a = step f a) : f = run := by
  funext a
  induction a using h.wellFounded.induction with
  | h a ih =>
    rw [hf a, h.equation a]
    exact h.looksAtCalls a f run ih

/-- A chain of calls, each made by the one before, with what it costs: every call costs what
its caller says. -/
inductive Chained {α : Type} (Calls : α → α → Prop) (cost : α → Nat) (start : α) :
    Nat → α → Prop
  /-- No call is made. -/
  | start : Chained Calls cost start 0 start
  /-- One more call is made. -/
  | call {n : Nat} {a b : α} (h : Chained Calls cost start n a) (hc : Calls a b) :
    Chained Calls cost start (n + cost a) b

/-- How many references a call for a schema enters. -/
def Schema.hops : Schema → Nat
  | .reference _ => 1
  | _ => 0

namespace Place

/-- The check of a place. -/
def check (place : Place) : StateM Session Outcome :=
  Conformance.check place.rules place.schema place.value place.here

/-- The calls that a check makes to itself. Whatever a reference leads to is called for, and
children are called for at any depth. -/
inductive Calls : Place → Place → Prop
  /-- A value that is not null has to meet the schema inside a nullable one. -/
  | inner {rules : Rules} {inner : Schema} {value : Json} {here : Position}
    (hn : ¬value.isNull) : Calls ⟨rules, .nullable inner, value, here⟩ ⟨rules, inner, value, here⟩
  /-- The members of a union are tried. -/
  | tried {rules : Rules} {members : List Schema} {member : Schema} {value : Json}
    {here : Position} (hm : member ∈ members) :
    Calls ⟨rules, .union members, value, here⟩ ⟨rules.failFast, member, value, here⟩
  /-- All members of an intersection are checked. -/
  | every {rules : Rules} {members : List Schema} {member : Schema} {value : Json}
    {here : Position} (hm : member ∈ members) :
    Calls ⟨rules, .intersection members, value, here⟩ ⟨rules, member, value, here⟩
  /-- A reference that may be followed leads to some schema. -/
  | target {rules : Rules} {r : Reference} {value : Json} {here : Position}
    (he : here.mayEnter r.cell) (target : Schema) :
    Calls ⟨rules, .reference r, value, here⟩ ⟨rules, target, value, here.enter r.cell⟩
  /-- The children of a container are checked. -/
  | child {rules : Rules} {schema part : Schema} {value item : Json} {here : Position}
    {children : List Child} {assemble : List (Option Json) → Json} {segment : Segment}
    (hc : Container schema value children assemble)
    (hm : .present segment part item ∈ children) :
    Calls ⟨rules, schema, value, here⟩ ⟨rules, part, item, here.child segment⟩

/-- A call stays at the node and goes to a part of the schema. -/
structure Narrows (place inner : Place) : Prop where
  /-- The value is the same. -/
  value : inner.value = place.value
  /-- So are the node and the references being followed there. -/
  here : inner.here = place.here
  /-- The schema is a part. -/
  part : inner.schema ∈ place.schema.parts

/-- A call stays at the node and follows one more reference there. -/
structure Enters (place inner : Place) : Prop where
  /-- The value is the same. -/
  value : inner.value = place.value
  /-- The cell of the reference is none of those that are being followed, and there is a hop
  left for it. -/
  reference : ∃ r, place.schema = .reference r ∧ r.cell ∉ place.here.entered ∧
    place.here.entered.length < maxHops ∧ inner.here = place.here.enter r.cell

/-- A call goes down to a child and leaves all references behind. -/
structure Descends (place inner : Place) : Prop where
  /-- The value nests less deeply. -/
  nesting : inner.value.nesting < place.value.nesting
  /-- No reference is being followed at the child. -/
  child : ∃ segment, inner.here = ⟨place.here.path ++ [segment], []⟩

/-- Every call goes to a part of the schema, follows a reference, or goes down to a child,
and only the first and the last are no hops. -/
theorem Calls.cases {place inner : Place} (h : place.Calls inner) :
    place.Narrows inner ∧ place.schema.hops = 0 ∨ place.Enters inner ∧ place.schema.hops = 1 ∨
      place.Descends inner ∧ place.schema.hops = 0 := by
  cases h with
  | inner _ => exact .inl ⟨⟨rfl, rfl, List.mem_singleton_self _⟩, rfl⟩
  | tried hm | every hm => exact .inl ⟨⟨rfl, rfl, hm⟩, rfl⟩
  | target he target => exact .inr (.inl ⟨⟨rfl, _, rfl, he.2, he.1, rfl⟩, rfl⟩)
  | @child rules schema part value item here children assemble segment hc hm =>
    have hhops : schema.hops = 0 := by
      cases schema with
      | reference r => cases hc <;> rename_i h <;> cases h
      | _ => rfl
    exact .inr (.inr ⟨⟨hc.nesting_lt hm, segment, rfl⟩, hhops⟩)

/-- What every call lessens: how deeply the value nests, else the hops that are left at the
node, else the schema. -/
noncomputable def rank (place : Place) : Nat × Nat × Nat :=
  (place.value.nesting, maxHops - place.here.entered.length, sizeOf place.schema)

/-- Every call lessens the rank. -/
theorem Calls.rank_lt {place inner : Place} (h : place.Calls inner) :
    Prod.Lex (· < ·) (Prod.Lex (· < ·) (· < ·)) inner.rank place.rank := by
  rcases h.cases with ⟨hn, _⟩ | ⟨he, _⟩ | ⟨hd, _⟩
  · rw [rank, rank, hn.value, hn.here]
    exact .right _ (.right _ (Schema.sizeOf_part hn.part))
  · obtain ⟨r, _, hnew, hleft, hhere⟩ := he.reference
    rw [rank, rank, he.value, hhere]
    exact .right _ (.left _ _ (Position.hops_enter_lt ⟨hleft, hnew⟩))
  · exact .left _ _ hd.nesting

/-- No calls go on for ever. -/
theorem calls_wellFounded : WellFounded fun inner outer : Place => outer.Calls inner := by
  have hlex : WellFounded
      (Prod.Lex (· < ·) (Prod.Lex (· < ·) (· < ·)) : Nat × Nat × Nat → Nat × Nat × Nat → Prop) :=
    WellFounded.prod_lex Nat.lt_wfRel.wf (WellFounded.prod_lex Nat.lt_wfRel.wf Nat.lt_wfRel.wf)
  exact Subrelation.wf (fun h => Calls.rank_lt h) (InvImage.wf rank hlex)

end Place

section Steps

variable (recur : Place → StateM Session Outcome)

/-- The check of one child, with the check of its value left open. -/
def stepChild (rules : Rules) (here : Position) :
    Child → StateM Session (Except Report (Option Json))
  | .present segment schema value => do
    match ← recur ⟨rules, schema, value, here.child segment⟩ with
    | .ok output => pure (.ok (some output))
    | .error report => pure (.error report)
  | .absent name schema => do
    if ← Session.onStore schema.acceptsAbsent then pure (.ok none)
    else pure (.error ((here.child (.key name)).reject (.missingField name)))

/-- The check of a row of children, with the checks of their values left open. -/
def stepChildren (rules : Rules) (here : Position) :
    List Child → StateM Session (Except Report (List (Option Json)))
  | [] => pure (.ok [])
  | child :: rest => do
    match ← stepChild recur rules here child with
    | .ok output =>
      match ← stepChildren rules here rest with
      | .ok outputs => pure (.ok (output :: outputs))
      | .error report => pure (.error report)
    | .error report =>
      if rules.mode = .collectAll then do
        match ← stepChildren rules here rest with
        | .ok _ => pure (.error report)
        | .error more => pure (.error (report.append more))
      else pure (.error report)

/-- The search for a member that accepts, with the checks of the members left open. -/
def stepMembers (rules : Rules) (value : Json) (here : Position) :
    Nat → List Schema → StateM Session (Except (List Rejection) Json)
  | _, [] => pure (.error [])
  | index, member :: rest => do
    match ← recur ⟨rules, member, value, here⟩ with
    | .ok output => pure (.ok output)
    | .error report => do
      Session.record (.memberRejected index report.head)
      match ← stepMembers rules value here (index + 1) rest with
      | .ok output => pure (.ok output)
      | .error attempts => pure (.error (report.head :: attempts))

/-- The merging of all members, with the checks of the members left open. -/
def stepEvery (rules : Rules) (value : Json) (here : Position) :
    Nat → List Schema → Option Json → StateM Session Outcome
  | _, [], merged => pure (.ok (merged.getD value))
  | index, member :: rest, merged => do
    match ← recur ⟨rules, member, value, here⟩ with
    | .error causes => pure (.error (here.reject (.memberFailed index causes)))
    | .ok output =>
      match mergeInto merged output with
      | .ok output => stepEvery rules value here (index + 1) rest (some output)
      | .error way => pure (.error (.singleton ⟨here.path ++ way, .conflict index⟩))

/-- The check of a place, with every call that it makes to itself left open. -/
def Place.step (place : Place) : StateM Session Outcome :=
  let ⟨rules, schema, value, here⟩ := place
  match schema with
  | .leaf leaf => checkLeaf rules leaf value here
  | .nullable inner =>
    if value.isNull then pure (.ok .null) else recur ⟨rules, inner, value, here⟩
  | .union members => do
    match ← stepMembers recur rules.failFast value here 0 members with
    | .ok output => pure (.ok output)
    | .error attempts =>
      let expected := (Schema.union members).render (← get).store
      pure (.error (here.reject (.noMemberMatched expected attempts)))
  | .intersection members => stepEvery recur rules value here 0 members none
  | .reference r =>
    if here.mayEnter r.cell then do
      match ← Session.onStore (Store.fetch? r.cell) with
      | some target => recur ⟨rules, target, value, here.enter r.cell⟩
      | none => pure (.error (here.reject .unresolvedReference))
    else pure (.error (here.reject .cyclicReference))
  | schema =>
    match View.of schema value with
    | .plain => pure (.ok value)
    | .mismatch expected => pure (.error (here.reject (.shapeMismatch expected value.kind)))
    | .container children assemble _ =>
      if rules.maxDepth ≤ here.path.length then
        pure (.error (here.reject (.depthExceeded rules.maxDepth)))
      else do
        match ← stepChildren recur rules here children with
        | .ok outputs => pure (.ok (assemble outputs))
        | .error report => pure (.error report)

end Steps

section Equations

variable (rules : Rules) (value : Json) (here : Position)

/-- A child is checked by its step. -/
theorem checkChild_eq_step (child : Child) :
    checkChild rules child here = stepChild Place.check rules here child := by
  cases child with
  | present segment schema value =>
    rw [checkChild]
    rfl
  | absent name schema => rw [checkChild, stepChild]

/-- Children are checked by their steps. -/
theorem checkChildren_eq_step (children : List Child) :
    checkChildren rules children here = stepChildren Place.check rules here children := by
  induction children with
  | nil => rw [checkChildren, stepChildren]
  | cons child rest ih =>
    rw [checkChildren, checkChild_eq_step, ih]
    rfl

/-- The members of a union are tried by their steps. -/
theorem checkMembers_eq_step (index : Nat) (members : List Schema) :
    checkMembers rules index members value here =
      stepMembers Place.check rules value here index members := by
  induction members generalizing index with
  | nil => rw [checkMembers, stepMembers]
  | cons member rest ih =>
    rw [checkMembers, stepMembers, ih]
    rfl

/-- The members of an intersection are merged by their steps. -/
theorem checkEvery_eq_step (index : Nat) (members : List Schema) (merged : Option Json) :
    checkEvery rules index members merged value here =
      stepEvery Place.check rules value here index members merged := by
  induction members generalizing index merged with
  | nil => rw [checkEvery, stepEvery]
  | cons member rest ih =>
    rw [checkEvery, stepEvery]
    simp only [ih]
    rfl

end Equations

/-- The check of a place is its step, with the checks that it calls for. -/
theorem Place.check_eq_step (place : Place) : place.check = Place.step Place.check place := by
  obtain ⟨rules, schema, value, here⟩ := place
  cases schema with
  | leaf | nullable | reference =>
    rw [Place.check, Conformance.check]
    rfl
  | union members =>
    rw [Place.check, Conformance.check, checkMembers_eq_step]
    rfl
  | intersection members =>
    rw [Place.check, Conformance.check, checkEvery_eq_step]
    rfl
  | list | struct | object | record | json | any =>
    rw [Place.check, Conformance.check]
    · simp only [checkChildren_eq_step]
      rfl
    all_goals
      intros
      contradiction

section Congruence

variable {f g : Place → StateM Session Outcome} {rules : Rules} {value : Json} {here : Position}

/-- The step of a child looks at the check of its value alone. -/
theorem stepChild_congr {child : Child}
    (h : ∀ segment schema item, child = .present segment schema item →
      f ⟨rules, schema, item, here.child segment⟩ = g ⟨rules, schema, item, here.child segment⟩) :
    stepChild f rules here child = stepChild g rules here child := by
  cases child with
  | present segment schema item => rw [stepChild, stepChild, h segment schema item rfl]
  | absent name schema => rw [stepChild, stepChild]

/-- The steps of children look at the checks of their values alone. -/
theorem stepChildren_congr {children : List Child}
    (h : ∀ segment schema item, .present segment schema item ∈ children →
      f ⟨rules, schema, item, here.child segment⟩ = g ⟨rules, schema, item, here.child segment⟩) :
    stepChildren f rules here children = stepChildren g rules here children := by
  induction children with
  | nil => rw [stepChildren, stepChildren]
  | cons child rest ih =>
    have hrest := ih fun segment schema item hm => h segment schema item (List.mem_cons_of_mem _ hm)
    have hchild : stepChild f rules here child = stepChild g rules here child :=
      stepChild_congr fun segment schema item heq =>
        h segment schema item (by rw [heq]; exact List.mem_cons_self)
    rw [stepChildren, stepChildren, hchild, hrest]

/-- The search for a member looks at the checks of the members alone. -/
theorem stepMembers_congr {members : List Schema} (index : Nat)
    (h : ∀ member ∈ members, f ⟨rules, member, value, here⟩ = g ⟨rules, member, value, here⟩) :
    stepMembers f rules value here index members =
      stepMembers g rules value here index members := by
  induction members generalizing index with
  | nil => rw [stepMembers, stepMembers]
  | cons member rest ih =>
    obtain ⟨hfirst, hrest⟩ := List.forall_mem_cons.mp h
    rw [stepMembers, stepMembers, hfirst, ih (index + 1) hrest]

/-- The merging of members looks at the checks of the members alone. -/
theorem stepEvery_congr {members : List Schema} (index : Nat) (merged : Option Json)
    (h : ∀ member ∈ members, f ⟨rules, member, value, here⟩ = g ⟨rules, member, value, here⟩) :
    stepEvery f rules value here index members merged =
      stepEvery g rules value here index members merged := by
  induction members generalizing index merged with
  | nil => rw [stepEvery, stepEvery]
  | cons member rest ih =>
    obtain ⟨hfirst, hrest⟩ := List.forall_mem_cons.mp h
    rw [stepEvery, stepEvery, hfirst]
    simp only [ih _ _ hrest]

end Congruence

namespace Place

/-- A step looks at the calls of the place alone. -/
theorem step_congr {f g : Place → StateM Session Outcome} (place : Place)
    (h : ∀ inner, place.Calls inner → f inner = g inner) : step f place = step g place := by
  obtain ⟨rules, schema, value, here⟩ := place
  have hchildren : ∀ children assemble, Container schema value children assemble →
      stepChildren f rules here children = stepChildren g rules here children :=
    fun children assemble hc => stepChildren_congr fun _ _ _ hm => h _ (.child hc hm)
  cases schema with
  | leaf => rfl
  | nullable inner =>
    rw [step, step]
    split
    · rfl
    · next hn => exact h _ (.inner hn)
  | union members =>
    rw [step, step]
    rw [stepMembers_congr 0 fun member hm => h _ (.tried hm)]
  | intersection members =>
    rw [step, step]
    exact stepEvery_congr 0 none fun member hm => h _ (.every hm)
  | reference r =>
    rw [step, step]
    split
    · next he =>
      refine bind_congr fun found => ?_
      cases found with
      | none => rfl
      | some target => exact h _ (.target he target)
    · rfl
  | list | struct | object | record | json | any =>
    rw [step, step]
    · split
      · rfl
      · rfl
      · next children assemble _ hview =>
          rw [hchildren children assemble (View.container_of hview)]
    all_goals
      intros
      contradiction

/-- A check runs by its calls. -/
theorem runsBy_calls : RunsBy Calls step check :=
  ⟨calls_wellFounded, check_eq_step, fun place _ _ h => step_congr place h⟩

/-- Along a chain of calls that starts with no reference being followed, the cells of those
that are being followed are distinct and no more than the hops; and what was entered so far
is paid for by the nesting that was left behind. -/
theorem entered_of_chained {start place : Place} {n : Nat} (hstart : start.here.entered = [])
    (h : Chained Calls (fun place => place.schema.hops) start n place) :
    place.here.entered.Nodup ∧ place.here.entered.length ≤ maxHops ∧
      n + maxHops * place.value.nesting ≤
        maxHops * start.value.nesting + place.here.entered.length := by
  induction h with
  | start =>
    rw [hstart]
    exact ⟨List.nodup_nil, Nat.zero_le _, by simp⟩
  | @call n place inner _ hc ih =>
    obtain ⟨hnodup, hlength, hpaid⟩ := ih
    rcases hc.cases with ⟨hn, hhops⟩ | ⟨he, hhops⟩ | ⟨hd, hhops⟩
    · rw [hn.here, hn.value, hhops]
      exact ⟨hnodup, hlength, hpaid⟩
    · obtain ⟨r, _, hnew, hleft, hhere⟩ := he.reference
      rw [he.value, hhere, hhops, Position.enter, List.length_cons]
      exact ⟨List.nodup_cons.mpr ⟨hnew, hnodup⟩, hleft, by omega⟩
    · obtain ⟨segment, hhere⟩ := hd.child
      have hless : maxHops * (inner.value.nesting + 1) ≤ maxHops * place.value.nesting :=
        Nat.mul_le_mul_left maxHops hd.nesting
      rw [Nat.mul_succ] at hless
      rw [hhere, hhops, List.length_nil]
      exact ⟨List.nodup_nil, Nat.zero_le _, by omega⟩

end Place

/-- One call of the question whether a schema accepts absence. -/
structure Inquiry where
  /-- The cells of the references that are being followed. -/
  entered : List CellId
  /-- The schema that is asked. -/
  schema : Schema

section Steps

variable (recur : Inquiry → StateM Store Bool)

/-- The search for a member that accepts absence, with their answers left open. -/
def stepAny (entered : List CellId) : List Schema → StateM Store Bool
  | [] => pure false
  | member :: rest => do
    if ← recur ⟨entered, member⟩ then pure true else stepAny entered rest

/-- The search for a member that does not accept absence, with their answers left open. -/
def stepAll (entered : List CellId) : List Schema → StateM Store Bool
  | [] => pure true
  | member :: rest => do
    if ← recur ⟨entered, member⟩ then stepAll entered rest else pure false

/-- The answer to an inquiry, with every call that it makes to itself left open. -/
def Inquiry.step (inquiry : Inquiry) : StateM Store Bool :=
  let ⟨entered, schema⟩ := inquiry
  match schema with
  | .nullable _ | .any => pure true
  | .union members => stepAny recur entered members
  | .intersection members => stepAll recur entered members
  | .reference r =>
    if entered.length < maxHops ∧ r.cell ∉ entered then do
      match ← Store.fetch? r.cell with
      | some target => recur ⟨r.cell :: entered, target⟩
      | none => pure false
    else pure false
  | _ => pure false

end Steps

namespace Inquiry

/-- The answer to an inquiry. -/
def answer (inquiry : Inquiry) : StateM Store Bool :=
  inquiry.schema.acceptsAbsentWithin inquiry.entered

/-- The calls that an inquiry makes to itself, whatever a reference leads to. -/
inductive Calls : Inquiry → Inquiry → Prop
  /-- The members of a union are asked. -/
  | any {entered : List CellId} {members : List Schema} {member : Schema}
    (hm : member ∈ members) : Calls ⟨entered, .union members⟩ ⟨entered, member⟩
  /-- The members of an intersection are asked. -/
  | all {entered : List CellId} {members : List Schema} {member : Schema}
    (hm : member ∈ members) : Calls ⟨entered, .intersection members⟩ ⟨entered, member⟩
  /-- A reference that may be followed leads to some schema. -/
  | target {entered : List CellId} {r : Reference} (hl : entered.length < maxHops)
    (hn : r.cell ∉ entered) (target : Schema) :
    Calls ⟨entered, .reference r⟩ ⟨r.cell :: entered, target⟩

/-- No inquiries go on for ever. -/
theorem calls_wellFounded : WellFounded fun inner outer : Inquiry => outer.Calls inner := by
  have hlex : WellFounded (Prod.Lex (· < ·) (· < ·) : Nat × Nat → Nat × Nat → Prop) :=
    WellFounded.prod_lex Nat.lt_wfRel.wf Nat.lt_wfRel.wf
  refine Subrelation.wf (fun h => ?_) (InvImage.wf
    (fun inquiry : Inquiry => (maxHops - inquiry.entered.length, sizeOf inquiry.schema)) hlex)
  cases h with
  | any hm | all hm => exact .right _ (Schema.sizeOf_part hm)
  | @target entered r hl hn target =>
    have hless : maxHops - (r.cell :: entered).length < maxHops - entered.length := by
      rw [List.length_cons]
      omega
    exact .left _ _ hless

/-- Any member is asked by the step. -/
theorem any_eq_step (entered : List CellId) (members : List Schema) :
    Schema.anyAcceptsAbsent entered members = stepAny answer entered members := by
  induction members with
  | nil => rw [Schema.anyAcceptsAbsent, stepAny]
  | cons member rest ih =>
    rw [Schema.anyAcceptsAbsent, stepAny, ih]
    rfl

/-- All members are asked by the step. -/
theorem all_eq_step (entered : List CellId) (members : List Schema) :
    Schema.allAcceptAbsent entered members = stepAll answer entered members := by
  induction members with
  | nil => rw [Schema.allAcceptAbsent, stepAll]
  | cons member rest ih =>
    rw [Schema.allAcceptAbsent, stepAll, ih]
    rfl

/-- The answer is the step, with the answers that it calls for. -/
theorem answer_eq_step (inquiry : Inquiry) : inquiry.answer = step answer inquiry := by
  obtain ⟨entered, schema⟩ := inquiry
  rw [answer]
  cases schema with
  | union members =>
    rw [Schema.acceptsAbsentWithin, any_eq_step]
    rfl
  | intersection members =>
    rw [Schema.acceptsAbsentWithin, all_eq_step]
    rfl
  | nullable | any | reference =>
    rw [Schema.acceptsAbsentWithin]
    rfl
  | leaf | list | struct | object | record | json =>
    simp only [Schema.acceptsAbsentWithin]
    rfl

/-- A step looks at the calls of the inquiry alone. -/
theorem step_congr {f g : Inquiry → StateM Store Bool} (inquiry : Inquiry)
    (h : ∀ inner, inquiry.Calls inner → f inner = g inner) : step f inquiry = step g inquiry := by
  obtain ⟨entered, schema⟩ := inquiry
  have hany : ∀ members, (∀ member ∈ members, f ⟨entered, member⟩ = g ⟨entered, member⟩) →
      stepAny f entered members = stepAny g entered members ∧
        stepAll f entered members = stepAll g entered members := by
    intro members hm
    induction members with
    | nil => exact ⟨rfl, rfl⟩
    | cons member rest ih =>
      obtain ⟨hfirst, hrest⟩ := List.forall_mem_cons.mp hm
      obtain ⟨hor, hand⟩ := ih hrest
      rw [stepAny, stepAny, stepAll, stepAll, hfirst, hor, hand]
      exact ⟨rfl, rfl⟩
  cases schema with
  | union members => exact (hany members fun member hm => h _ (.any hm)).1
  | intersection members => exact (hany members fun member hm => h _ (.all hm)).2
  | reference r =>
    rw [step, step]
    split
    · next he =>
      refine bind_congr fun found => ?_
      cases found with
      | none => rfl
      | some target => exact h _ (.target he.1 he.2 target)
    · rfl
  | _ => rfl

/-- Inquiries run by their calls. -/
theorem runsBy_calls : RunsBy Calls step answer :=
  ⟨calls_wellFounded, answer_eq_step, fun inquiry _ _ h => step_congr inquiry h⟩

/-- Along a chain of inquiries the cells of the references that are being followed are
distinct and no more than the hops, and they are all that was entered. -/
theorem entered_of_chained {schema : Schema} {inquiry : Inquiry} {n : Nat}
    (h : Chained Calls (fun inquiry => inquiry.schema.hops) ⟨[], schema⟩ n inquiry) :
    inquiry.entered.Nodup ∧ inquiry.entered.length ≤ maxHops ∧ n = inquiry.entered.length := by
  induction h with
  | start => exact ⟨List.nodup_nil, Nat.zero_le _, rfl⟩
  | call _ hc ih =>
    obtain ⟨hnodup, hlength, hn⟩ := ih
    cases hc with
    | any hm | all hm => exact ⟨hnodup, hlength, hn⟩
    | target hl hnew target => exact ⟨List.nodup_cons.mpr ⟨hnew, hnodup⟩, hl, by rw [hn]; rfl⟩

end Inquiry

/-- Every validation ends, at any depth limit. A check runs by its calls: each goes to a part of
the schema, enters a reference, or goes down to a child and leaves all references behind. The
references that are being followed are distinct and no more than the hops, so a chain of calls
enters no more than the hops for each level of the value. The question whether a schema
accepts absence runs in the same way. -/
theorem validate_calls_end (validator : Validator) (value : Json) :
    (∀ session, (validator.validate value session).1 =
      (Place.check ⟨validator.toRules, validator.schema, value, .root⟩ session).1) ∧
    RunsBy Place.Calls Place.step Place.check ∧
    (∀ n place, Chained Place.Calls (fun place => place.schema.hops)
        ⟨validator.toRules, validator.schema, value, .root⟩ n place →
      place.here.entered.Nodup ∧ place.here.entered.length ≤ maxHops ∧
      n ≤ maxHops * (value.nesting + 1) ∧
      ∀ inner, place.Calls inner →
        place.Narrows inner ∨ place.Enters inner ∨ place.Descends inner) ∧
    RunsBy Inquiry.Calls Inquiry.step Inquiry.answer ∧
    ∀ (schema : Schema) n inquiry, Chained Inquiry.Calls (fun inquiry => inquiry.schema.hops)
        ⟨[], schema⟩ n inquiry →
      inquiry.entered.Nodup ∧ inquiry.entered.length ≤ maxHops ∧ n ≤ maxHops := by
  refine ⟨fun session => validator.validate_fst value session, Place.runsBy_calls,
    fun n place h => ?_, Inquiry.runsBy_calls, fun schema n inquiry h => ?_⟩
  · obtain ⟨hnodup, hlength, hpaid⟩ := Place.entered_of_chained rfl h
    have hhops : n ≤ maxHops * (value.nesting + 1) := by
      rw [Nat.mul_succ]
      exact (Nat.le_of_add_right_le hpaid).trans (Nat.add_le_add_left hlength _)
    refine ⟨hnodup, hlength, hhops, fun inner hc => ?_⟩
    rcases hc.cases with ⟨hn, _⟩ | ⟨he, _⟩ | ⟨hd, _⟩
    exacts [.inl hn, .inr (.inl he), .inr (.inr hd)]
  · obtain ⟨hnodup, hlength, hn⟩ := Inquiry.entered_of_chained h
    exact ⟨hnodup, hlength, hn ▸ hlength⟩

/-- There are stores in which every reference leads to a new one, without end. -/
example : ∃ store : Store, ∀ cell, store.target? cell = some (.reference ⟨cell + 1, .thunk⟩) :=
  ⟨⟨fun cell => .pending (.constant (.reference ⟨cell + 1, .thunk⟩) none), 0, [], []⟩,
    fun _ => rfl⟩

end Conformance
