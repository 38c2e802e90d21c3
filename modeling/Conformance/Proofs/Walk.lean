import Conformance.Proofs.Containers
import Conformance.Validator

/-!
# The steps of a check

What a check does for each kind of schema is one equation in terms of the
session before and after. Every result about whole checks is an induction
along their calls: the five functions call each other, and a `Walk` states
one property for each of them. `Walk.Inductive` collects what has to be shown
of one step, and `Walk.Inductive.holds` gives the property of every check.
-/

namespace Conformance

section Equations

variable (rules : Rules) (value : Json) (here : Position) (session : Session)

/-- A leaf is decided by the policy, and the verdict is recorded. -/
theorem check_leaf (leaf : Leaf) :
    check rules (.leaf leaf) value here session =
      match rules.policy.check leaf value with
      | .ok output => (.ok output, (Session.record (.leafChecked leaf value true) session).2)
      | .error cause =>
        (.error (here.reject cause), (Session.record (.leafChecked leaf value false) session).2) := by
  rw [check, checkLeaf]
  cases rules.policy.check leaf value <;> rfl

/-- Null meets every nullable schema. -/
theorem check_nullable_null (inner : Schema) (h : value.isNull) :
    check rules (.nullable inner) value here session = (.ok .null, session) := by
  rw [check, if_pos h]
  rfl

/-- Any other value has to meet the inner schema. -/
theorem check_nullable (inner : Schema) (h : ¬value.isNull) :
    check rules (.nullable inner) value here session = check rules inner value here session := by
  rw [check, if_neg h]

/-- A union gives what its members give; the attempts are put under its text. -/
theorem check_union (members : List Schema) :
    check rules (.union members) value here session =
      match checkMembers rules.failFast 0 members value here session with
      | (.ok output, later) => (.ok output, later)
      | (.error attempts, later) =>
        (.error (here.reject
          (.noMemberMatched ((Schema.union members).render later.store) attempts)), later) := by
  rw [check]
  rcases h : checkMembers rules.failFast 0 members value here session with ⟨_ | _, later⟩ <;>
    simp only [bind, StateT.bind, h] <;> rfl

/-- An intersection gives what all its members give together. -/
theorem check_intersection (members : List Schema) :
    check rules (.intersection members) value here session =
      checkEvery rules 0 members none value here session := by
  rw [check]

/-- A reference that may be followed leads to the schema in its cell. -/
theorem check_reference {r : Reference} (h : here.mayEnter r.cell) :
    check rules (.reference r) value here session =
      match Session.onStore (Store.fetch? r.cell) session with
      | (some target, later) => check rules target value (here.enter r.cell) later
      | (none, later) => (.error (here.reject .unresolvedReference), later) := by
  rw [check, if_pos h]
  rcases h : Session.onStore (Store.fetch? r.cell) session with ⟨_ | target, later⟩
  · simp only [bind, StateT.bind, h]
    rfl
  · simp only [bind, StateT.bind, h]

/-- A reference that may not be followed is a cycle. -/
theorem check_reference_blocked {r : Reference} (h : ¬here.mayEnter r.cell) :
    check rules (.reference r) value here session =
      (.error (here.reject .cyclicReference), session) := by
  rw [check, if_neg h]
  rfl

/-- A structural schema goes by its view of the value. -/
theorem check_structural {schema : Schema} (hs : schema.isStructural) :
    check rules schema value here =
      match View.of schema value with
      | .plain => pure (.ok value)
      | .mismatch expected => pure (.error (here.reject (.shapeMismatch expected value.kind)))
      | .container children assemble _ =>
        if rules.maxDepth ≤ here.path.length then
          pure (.error (here.reject (.depthExceeded rules.maxDepth)))
        else (do
          match ← checkChildren rules children here with
          | .ok outputs => pure (.ok (assemble outputs))
          | .error report => pure (.error report)) := by
  cases schema with
  | leaf | nullable | union | intersection | reference => simp [Schema.isStructural] at hs
  | list _ | struct _ | object _ _ | record _ | json | any =>
    rw [check] <;> first
      | rfl
      | intros
        contradiction

/-- A structural schema that has nothing to look into accepts the value. -/
theorem check_plain {schema : Schema} (hs : schema.isStructural)
    (h : View.of schema value = .plain) :
    check rules schema value here session = (.ok value, session) := by
  rw [check_structural rules value here hs, h]
  rfl

/-- A container schema rejects a value of another shape. -/
theorem check_mismatch {schema : Schema} {expected : String}
    (h : View.of schema value = .mismatch expected) :
    check rules schema value here session =
      (.error (here.reject (.shapeMismatch expected value.kind)), session) := by
  have hs : schema.isStructural := View.isStructural_of_ne_plain (by rw [h]; simp)
  rw [check_structural rules value here hs, h]
  rfl

section Containers

variable {rules value here session} {schema : Schema} {children : List Child}
  {assemble : List (Option Json) → Json}

/-- A container is not looked into at the depth limit. -/
theorem check_deep (h : Container schema value children assemble)
    (hd : rules.maxDepth ≤ here.path.length) :
    check rules schema value here session =
      (.error (here.reject (.depthExceeded rules.maxDepth)), session) := by
  obtain ⟨_, hview⟩ := View.of_container h
  have hs : schema.isStructural := View.isStructural_of_ne_plain (by rw [hview]; simp)
  rw [check_structural rules value here hs, hview]
  simp only [hd, if_true]
  rfl

/-- Above the limit a container is put together from the outputs of its
children. -/
theorem check_container (h : Container schema value children assemble)
    (hd : ¬rules.maxDepth ≤ here.path.length) :
    check rules schema value here session =
      match checkChildren rules children here session with
      | (.ok outputs, later) => (.ok (assemble outputs), later)
      | (.error report, later) => (.error report, later) := by
  obtain ⟨_, hview⟩ := View.of_container h
  have hs : schema.isStructural := View.isStructural_of_ne_plain (by rw [hview]; simp)
  rw [check_structural rules value here hs, hview]
  simp only [hd, if_false]
  rcases hc : checkChildren rules children here session with ⟨_ | _, later⟩ <;>
    simp only [bind, StateT.bind, hc] <;> rfl

variable (rules here session)

/-- An object is put together from the outputs of its declared fields. -/
theorem check_struct (fields : List (Field Schema)) (entries : List (String × Json)) :
    check rules (.struct fields) (.object entries) here session =
      if rules.maxDepth ≤ here.path.length then
        (.error (here.reject (.depthExceeded rules.maxDepth)), session)
      else match checkChildren rules (fields.map (Child.ofField entries)) here session with
        | (.ok outputs, later) =>
          (.ok (.object (nameOutputs (fields.map Field.name) outputs)), later)
        | (.error report, later) => (.error report, later) := by
  have hc : Container (.struct fields) (.object entries) _ _ := .fields rfl
  by_cases hd : rules.maxDepth ≤ here.path.length
  · rw [if_pos hd]
    exact check_deep hc hd
  · rw [if_neg hd]
    exact check_container hc hd

/-- A list is put together from the outputs of its items. -/
theorem check_list (element : Schema) (items : List Json) :
    check rules (.list element) (.array items) here session =
      if rules.maxDepth ≤ here.path.length then
        (.error (here.reject (.depthExceeded rules.maxDepth)), session)
      else match checkChildren rules (Child.ofItems element 0 items) here session with
        | (.ok outputs, later) => (.ok (.array (outputs.filterMap fun output => output)), later)
        | (.error report, later) => (.error report, later) := by
  have hc : Container (.list element) (.array items) _ _ := .items rfl
  by_cases hd : rules.maxDepth ≤ here.path.length
  · rw [if_pos hd]
    exact check_deep hc hd
  · rw [if_neg hd]
    exact check_container hc hd

end Containers

/-- A child that is present is checked one level down. -/
theorem checkChild_present (segment : Segment) (schema : Schema) :
    checkChild rules (.present segment schema value) here session =
      match check rules schema value (here.child segment) session with
      | (.ok output, later) => (.ok (some output), later)
      | (.error report, later) => (.error report, later) := by
  rw [checkChild]
  rcases h : check rules schema value (here.child segment) session with ⟨_ | _, later⟩ <;>
    simp only [bind, StateT.bind, h] <;> rfl

/-- A child that is absent is skipped if it may be, and missing otherwise. -/
theorem checkChild_absent (name : String) (schema : Schema) :
    checkChild rules (.absent name schema) here session =
      match Session.onStore schema.acceptsAbsent session with
      | (true, later) => (.ok none, later)
      | (false, later) =>
        (.error ((here.child (.key name)).reject (.missingField name)), later) := by
  rw [checkChild]
  rcases h : Session.onStore schema.acceptsAbsent session with ⟨_ | _, later⟩ <;>
    simp only [bind, StateT.bind, h] <;> rfl

/-- No children, no outputs. -/
theorem checkChildren_nil :
    checkChildren rules [] here session = (.ok [], session) := by
  rw [checkChildren]
  rfl

/-- After a child the others are checked, unless it was rejected and only the
first rejection counts. -/
theorem checkChildren_cons (child : Child) (rest : List Child) :
    checkChildren rules (child :: rest) here session =
      match checkChild rules child here session with
      | (.ok output, later) =>
        match checkChildren rules rest here later with
        | (.ok outputs, last) => (.ok (output :: outputs), last)
        | (.error report, last) => (.error report, last)
      | (.error report, later) =>
        if rules.mode = .collectAll then
          match checkChildren rules rest here later with
          | (.ok _, last) => (.error report, last)
          | (.error more, last) => (.error (report.append more), last)
        else (.error report, later) := by
  rw [checkChildren]
  rcases h : checkChild rules child here session with ⟨report | output, later⟩
  · by_cases hm : rules.mode = .collectAll
    · rcases hr : checkChildren rules rest here later with ⟨_ | _, last⟩ <;>
        simp only [bind, StateT.bind, h, hm, if_true, hr] <;> rfl
    · simp only [bind, StateT.bind, h, hm, if_false]
      rfl
  · rcases hr : checkChildren rules rest here later with ⟨_ | _, last⟩ <;>
      simp only [bind, StateT.bind, h, hr] <;> rfl

/-- A union without members has no attempts. -/
theorem checkMembers_nil (index : Nat) :
    checkMembers rules index [] value here session = (.error [], session) := by
  rw [checkMembers]
  rfl

/-- The first rejection of a member stands before those of the later ones. -/
theorem checkMembers_cons (index : Nat) (member : Schema) (rest : List Schema) :
    checkMembers rules index (member :: rest) value here session =
      match check rules member value here session with
      | (.ok output, later) => (.ok output, later)
      | (.error report, later) =>
        match checkMembers rules (index + 1) rest value here
            (Session.record (.memberRejected index report.head) later).2 with
        | (.ok output, last) => (.ok output, last)
        | (.error attempts, last) => (.error (report.head :: attempts), last) := by
  rw [checkMembers]
  rcases h : check rules member value here session with ⟨report | _, later⟩
  · simp only [bind, StateT.bind, h]
    generalize hnext : (Session.record (.memberRejected index report.head) later).2 = next
    have hrecord : Session.record (.memberRejected index report.head) later = ((), next) := by
      rw [← hnext]
      rfl
    rw [hrecord]
    rcases hm : checkMembers rules (index + 1) rest value here next with ⟨_ | _, last⟩ <;>
      simp only [hm] <;> rfl
  · simp only [bind, StateT.bind, h]
    rfl

/-- After its last member an intersection gives what was merged. -/
theorem checkEvery_nil (index : Nat) (merged : Option Json) :
    checkEvery rules index [] merged value here session = (.ok (merged.getD value), session) := by
  rw [checkEvery]
  rfl

/-- A member that accepts has its output merged, and the others follow. -/
theorem checkEvery_cons (index : Nat) (member : Schema) (rest : List Schema)
    (merged : Option Json) :
    checkEvery rules index (member :: rest) merged value here session =
      match check rules member value here session with
      | (.error causes, later) => (.error (here.reject (.memberFailed index causes)), later)
      | (.ok output, later) =>
        match mergeInto merged output with
        | .ok output => checkEvery rules (index + 1) rest (some output) value here later
        | .error way => (.error (.singleton ⟨here.path ++ way, .conflict index⟩), later) := by
  rw [checkEvery]
  rcases h : check rules member value here session with ⟨_ | output, later⟩
  · simp only [bind, StateT.bind, h]
    rfl
  · cases hm : mergeInto merged output with
    | ok together => simp only [bind, StateT.bind, h, hm]
    | error way =>
      simp only [bind, StateT.bind, h, hm]
      rfl

end Equations

/-- A validator checks from the root, and records that a value was rejected. -/
theorem Validator.validate_eq (validator : Validator) (value : Json) (session : Session) :
    validator.validate value session =
      match check validator.toRules validator.schema value .root session with
      | (.ok output, later) => (.ok output, later)
      | (.error report, later) =>
        (.error report, (Session.record (.valueRejected (validator.schema.render later.store)
          validator.policy.name report.length report.head) later).2) := by
  unfold Validator.validate
  rcases h : check validator.toRules validator.schema value .root session with ⟨_ | _, later⟩ <;>
    simp only [bind, StateT.bind, h] <;> rfl

/-- What a validator gives is what the check from the root gives. -/
theorem Validator.validate_fst (validator : Validator) (value : Json) (session : Session) :
    (validator.validate value session).1 =
      (check validator.toRules validator.schema value .root session).1 := by
  rw [Validator.validate_eq]
  rcases check validator.toRules validator.schema value .root session with ⟨_ | _, later⟩ <;> rfl

/-- One property for each of the five functions of a check. -/
structure Walk where
  /-- Said of the check of a value against a schema. -/
  ofSchema : Rules → Schema → Json → Position → Prop
  /-- Said of the check of one child. -/
  ofChild : Rules → Child → Position → Prop
  /-- Said of the check of a row of children. -/
  ofChildren : Rules → List Child → Position → Prop
  /-- Said of the search for a member that accepts, from an index on. -/
  ofMembers : Rules → Nat → List Schema → Json → Position → Prop
  /-- Said of the merging of all members, from an index on. -/
  ofEvery : Rules → Nat → List Schema → Option Json → Json → Position → Prop

/-- Every step of a check carries the properties of a walk from the calls that it
makes to itself. -/
structure Walk.Inductive (walk : Walk) : Prop where
  leaf : ∀ rules leaf value here, walk.ofSchema rules (.leaf leaf) value here
  null : ∀ rules inner value here, value.isNull → walk.ofSchema rules (.nullable inner) value here
  nullable : ∀ rules inner value here, ¬value.isNull → walk.ofSchema rules inner value here →
    walk.ofSchema rules (.nullable inner) value here
  union : ∀ rules members value here, walk.ofMembers rules.failFast 0 members value here →
    walk.ofSchema rules (.union members) value here
  intersection : ∀ rules members value here, walk.ofEvery rules 0 members none value here →
    walk.ofSchema rules (.intersection members) value here
  followed : ∀ rules (r : Reference) value (here : Position), here.mayEnter r.cell →
    (∀ target, walk.ofSchema rules target value (here.enter r.cell)) →
    walk.ofSchema rules (.reference r) value here
  blocked : ∀ rules (r : Reference) value (here : Position), ¬here.mayEnter r.cell →
    walk.ofSchema rules (.reference r) value here
  plain : ∀ rules schema value here, schema.isStructural → View.of schema value = .plain →
    walk.ofSchema rules schema value here
  mismatch : ∀ rules schema value here expected, View.of schema value = .mismatch expected →
    walk.ofSchema rules schema value here
  deep : ∀ (rules : Rules) schema value (here : Position) children assemble,
    Container schema value children assemble →
    rules.maxDepth ≤ here.path.length → walk.ofSchema rules schema value here
  container : ∀ (rules : Rules) schema value (here : Position) children assemble,
    Container schema value children assemble →
    ¬rules.maxDepth ≤ here.path.length → walk.ofChildren rules children here →
    walk.ofSchema rules schema value here
  present : ∀ rules segment schema value (here : Position),
    walk.ofSchema rules schema value (here.child segment) →
    walk.ofChild rules (.present segment schema value) here
  absent : ∀ rules name schema here, walk.ofChild rules (.absent name schema) here
  noChildren : ∀ rules here, walk.ofChildren rules [] here
  moreChildren : ∀ rules child rest here, walk.ofChild rules child here →
    walk.ofChildren rules rest here → walk.ofChildren rules (child :: rest) here
  noMembers : ∀ rules index value here, walk.ofMembers rules index [] value here
  moreMembers : ∀ rules index member rest value here, walk.ofSchema rules member value here →
    walk.ofMembers rules (index + 1) rest value here →
    walk.ofMembers rules index (member :: rest) value here
  everyDone : ∀ rules index merged value here, walk.ofEvery rules index [] merged value here
  everyMore : ∀ rules index member rest merged value here,
    walk.ofSchema rules member value here →
    (∀ output, walk.ofEvery rules (index + 1) rest (some output) value here) →
    walk.ofEvery rules index (member :: rest) merged value here

/-- What every step carries holds of every check. -/
theorem Walk.Inductive.holds {walk : Walk} (step : walk.Inductive) (rules : Rules)
    (schema : Schema) (value : Json) (here : Position) :
    walk.ofSchema rules schema value here := by
  apply check.induct walk.ofSchema walk.ofChildren walk.ofChild walk.ofEvery walk.ofMembers
  case case1 => exact fun rules value here leaf => step.leaf rules leaf value here
  case case2 => exact fun rules value here inner => step.null rules inner value here
  case case3 => exact fun rules value here inner => step.nullable rules inner value here
  case case4 => exact fun rules value here members => step.union rules members value here
  case case5 => exact fun rules value here members => step.intersection rules members value here
  case case6 => exact fun rules value here r => step.followed rules r value here
  case case7 => exact fun rules value here r => step.blocked rules r value here
  case case8 =>
    intro rules value here schema hl hn hu hi hr hview
    exact step.plain rules schema value here (Schema.isStructural_of_ne hl hn hu hi hr) hview
  case case9 =>
    intro rules value here schema _ _ _ _ _ expected hview
    exact step.mismatch rules schema value here expected hview
  case case10 =>
    intro rules value here schema _ _ _ _ _ children assemble _ hview hd
    exact step.deep rules schema value here children assemble (View.container_of hview) hd
  case case11 =>
    intro rules value here schema _ _ _ _ _ children assemble _ hview hd ih
    exact step.container rules schema value here children assemble (View.container_of hview) hd ih
  case case12 => exact step.noChildren
  case case13 => exact fun rules here child rest => step.moreChildren rules child rest here
  case case14 =>
    exact fun rules here segment schema value => step.present rules segment schema value here
  case case15 => exact fun rules here name schema => step.absent rules name schema here
  case case16 => exact step.everyDone
  case case17 =>
    exact fun rules index merged value here member rest =>
      step.everyMore rules index member rest merged value here
  case case18 => exact step.noMembers
  case case19 =>
    exact fun rules index value here member rest =>
      step.moreMembers rules index member rest value here

end Conformance
