import Conformance.Proofs.AbsenceWalk
import Conformance.Proofs.Walk

/-!
# The check without a guard

What the check would be if it followed every reference that leads somewhere and
remembered none: the same steps, without the list of references that are being followed.
On some graphs this recursion does not end. So it has a budget for the references that it
may follow on one branch, and no result once the budget is used up. A result that some
budget gives is given by every greater one, so the budget decides only whether there is a
result.
-/

namespace Conformance

section Ending

variable {σ α β : Type}

/-- Runs a step that always ends among steps that may not. -/
def ending (step : StateM σ α) : StateT σ Option α := fun state => some (step state)

/-- Goes on after a step that ends. -/
theorem bind_of_ends {step : StateT σ Option α} {next : α → StateT σ Option β} {state : σ}
    {run : α × σ} (h : step state = some run) : (step >>= next) state = next run.1 run.2 := by
  simp only [bind, StateT.bind, h, Option.bind_some]

/-- Goes on after a step that always ends. -/
theorem ending_bind (step : StateM σ α) (next : α → StateT σ Option β) (state : σ) :
    (ending step >>= next) state = next (step state).1 (step state).2 :=
  bind_of_ends rfl

/-- Where a step ends, another one ends in the same way. -/
def Refines (step more : StateT σ Option α) : Prop :=
  ∀ state run, step state = some run → more state = some run

/-- A step ends as it does. -/
theorem Refines.refl (step : StateT σ Option α) : Refines step step := fun _ _ h => h

/-- A step that never ends is refined by any other. -/
theorem Refines.failure (more : StateT σ Option α) : Refines failure more := by
  intro state run h
  cases h

/-- Steps that go on in the same way after they ended in the same way. -/
theorem Refines.bind {step more : StateT σ Option α} {next other : α → StateT σ Option β}
    (h : Refines step more) (hnext : ∀ a, Refines (next a) (other a)) :
    Refines (step >>= next) (more >>= other) := by
  intro state run hrun
  cases hstep : step state with
  | none =>
    simp only [Bind.bind, StateT.bind, hstep] at hrun
    cases hrun
  | some first =>
    rw [bind_of_ends hstep] at hrun
    rw [bind_of_ends (h state first hstep)]
    exact hnext first.1 first.2 run hrun

end Ending

/-- Runs a step on the store that may not end. -/
def Session.onStoreUnguarded {α : Type} (step : StateT Store Option α) :
    StateT Session Option α := fun session =>
  (step session.store).map fun (result, store) => (result, { session with store })

/-- A step on the store that ends in the same way leaves the same session. -/
theorem Refines.onStore {α : Type} {step more : StateT Store Option α} (h : Refines step more) :
    Refines (Session.onStoreUnguarded step) (Session.onStoreUnguarded more) := by
  intro session run hrun
  obtain ⟨first, hfirst, hlater⟩ := Option.map_eq_some_iff.mp hrun
  rw [Session.onStoreUnguarded, h session.store first hfirst, ← hlater, Option.map_some]

namespace Schema

mutual

/-- Whether a schema accepts absence, with every reference followed. -/
def acceptsAbsentUnguarded (budget : Nat) (schema : Schema) : StateT Store Option Bool :=
  match schema with
  | .nullable _ | .any => pure true
  | .union members => anyAcceptsAbsentUnguarded budget members
  | .intersection members => allAcceptAbsentUnguarded budget members
  | .reference r =>
    match budget with
    | 0 => failure
    | budget + 1 => do
      match ← ending (Store.fetch? r.cell) with
      | some target => acceptsAbsentUnguarded budget target
      | none => pure false
  | _ => pure false
termination_by (budget, sizeOf schema)

/-- Whether some member accepts absence, with every reference followed. -/
def anyAcceptsAbsentUnguarded (budget : Nat) (members : List Schema) :
    StateT Store Option Bool :=
  match members with
  | [] => pure false
  | member :: rest => do
    if ← acceptsAbsentUnguarded budget member then pure true
    else anyAcceptsAbsentUnguarded budget rest
termination_by (budget, sizeOf members)

/-- Whether all members accept absence, with every reference followed. -/
def allAcceptAbsentUnguarded (budget : Nat) (members : List Schema) :
    StateT Store Option Bool :=
  match members with
  | [] => pure true
  | member :: rest => do
    if ← acceptsAbsentUnguarded budget member then allAcceptAbsentUnguarded budget rest
    else pure false
termination_by (budget, sizeOf members)

end

end Schema

/-- The report of one cause at a path. -/
def Path.reject (path : Path) (cause : Cause) : Report := .singleton ⟨path, cause⟩

mutual

/-- Checks a value against a schema at a path, with every reference followed. -/
def checkUnguarded (rules : Rules) (budget : Nat) (schema : Schema) (value : Json)
    (path : Path) : StateT Session Option Outcome :=
  match schema with
  | .leaf leaf => ending (checkLeaf rules leaf value ⟨path, []⟩)
  | .nullable inner =>
    if value.isNull then pure (.ok .null) else checkUnguarded rules budget inner value path
  | .union members => do
    match ← checkMembersUnguarded rules.failFast budget 0 members value path with
    | .ok output => pure (.ok output)
    | .error attempts =>
      let expected := (Schema.union members).render (← get).store
      pure (.error (path.reject (.noMemberMatched expected attempts)))
  | .intersection members => checkEveryUnguarded rules budget 0 members none value path
  | .reference r =>
    match budget with
    | 0 => failure
    | budget + 1 => do
      match ← ending (Session.onStore (Store.fetch? r.cell)) with
      | some target => checkUnguarded rules budget target value path
      | none => pure (.error (path.reject .unresolvedReference))
  | schema =>
    match View.of schema value with
    | .plain => pure (.ok value)
    | .mismatch expected => pure (.error (path.reject (.shapeMismatch expected value.kind)))
    | .container children assemble _ =>
      if rules.maxDepth ≤ path.length then
        pure (.error (path.reject (.depthExceeded rules.maxDepth)))
      else do
        match ← checkChildrenUnguarded rules budget children path with
        | .ok outputs => pure (.ok (assemble outputs))
        | .error report => pure (.error report)
termination_by (budget, value.nesting, 0, sizeOf schema)
decreasing_by
  · decreasing_tactic
  · decreasing_tactic
  · decreasing_tactic
  · decreasing_tactic
  · exact .right _ (.left _ _ ‹_›)

/-- Checks one child of the container at a path. -/
def checkChildUnguarded (rules : Rules) (budget : Nat) (child : Child) (path : Path) :
    StateT Session Option (Except Report (Option Json)) :=
  match child with
  | .present segment schema value => do
    match ← checkUnguarded rules budget schema value (path ++ [segment]) with
    | .ok output => pure (.ok (some output))
    | .error report => pure (.error report)
  | .absent name schema => do
    if ← Session.onStoreUnguarded (schema.acceptsAbsentUnguarded budget) then pure (.ok none)
    else pure (.error (Path.reject (path ++ [.key name]) (.missingField name)))
termination_by (budget, child.nesting, 1, 0)
decreasing_by exact .right _ (.right _ (.left _ _ Nat.zero_lt_one))

/-- Checks children in order, with their outputs in their places. -/
def checkChildrenUnguarded (rules : Rules) (budget : Nat) (children : List Child)
    (path : Path) : StateT Session Option (Except Report (List (Option Json))) :=
  match children with
  | [] => pure (.ok [])
  | child :: rest => do
    match ← checkChildUnguarded rules budget child path with
    | .ok output =>
      match ← checkChildrenUnguarded rules budget rest path with
      | .ok outputs => pure (.ok (output :: outputs))
      | .error report => pure (.error report)
    | .error report =>
      if rules.mode = .collectAll then do
        match ← checkChildrenUnguarded rules budget rest path with
        | .ok _ => pure (.error report)
        | .error more => pure (.error (report.append more))
      else pure (.error report)
termination_by (budget, Child.nestingAll children, 1, children.length)
decreasing_by
  · exact .right _ (lex_of_le (Nat.le_max_left _ _) (.right _ (Nat.succ_pos _)))
  · exact .right _ (lex_of_le (Nat.le_max_right _ _) (.right _ (Nat.lt_succ_self _)))
  · exact .right _ (lex_of_le (Nat.le_max_right _ _) (.right _ (Nat.lt_succ_self _)))

/-- Checks the members of a union in order, up to the first that accepts. -/
def checkMembersUnguarded (rules : Rules) (budget index : Nat) (members : List Schema)
    (value : Json) (path : Path) : StateT Session Option (Except (List Rejection) Json) :=
  match members with
  | [] => pure (.error [])
  | member :: rest => do
    match ← checkUnguarded rules budget member value path with
    | .ok output => pure (.ok output)
    | .error report => do
      ending (Session.record (.memberRejected index report.head))
      match ← checkMembersUnguarded rules budget (index + 1) rest value path with
      | .ok output => pure (.ok output)
      | .error attempts => pure (.error (report.head :: attempts))
termination_by (budget, value.nesting, 0, sizeOf members)

/-- Checks all members of an intersection in order and merges their outputs. -/
def checkEveryUnguarded (rules : Rules) (budget index : Nat) (members : List Schema)
    (merged : Option Json) (value : Json) (path : Path) : StateT Session Option Outcome :=
  match members with
  | [] => pure (.ok (merged.getD value))
  | member :: rest => do
    match ← checkUnguarded rules budget member value path with
    | .error causes => pure (.error (path.reject (.memberFailed index causes)))
    | .ok output =>
      match mergeInto merged output with
      | .ok output => checkEveryUnguarded rules budget (index + 1) rest (some output) value path
      | .error way => pure (.error (.singleton ⟨path ++ way, .conflict index⟩))
termination_by (budget, value.nesting, 0, sizeOf members)

end

/-- Without a guard a structural schema goes by its view of the value, too. -/
theorem checkUnguarded_structural (rules : Rules) (budget : Nat) {schema : Schema} (value : Json)
    (path : Path) (hs : schema.isStructural) :
    checkUnguarded rules budget schema value path =
      match View.of schema value with
      | .plain => pure (.ok value)
      | .mismatch expected => pure (.error (path.reject (.shapeMismatch expected value.kind)))
      | .container children assemble _ =>
        if rules.maxDepth ≤ path.length then
          pure (.error (path.reject (.depthExceeded rules.maxDepth)))
        else (do
          match ← checkChildrenUnguarded rules budget children path with
          | .ok outputs => pure (.ok (assemble outputs))
          | .error report => pure (.error report)) := by
  cases schema with
  | leaf | nullable | union | intersection | reference => simp [Schema.isStructural] at hs
  | list _ | struct _ | object _ _ | record _ | json | any =>
    rw [checkUnguarded] <;> first
      | rfl
      | intros
        contradiction

/-- Without a guard, too, a schema that only a value can meet does not accept absence. -/
theorem Schema.acceptsAbsentUnguarded_of_needsValue {schema : Schema} (h : schema.needsValue)
    (budget : Nat) : schema.acceptsAbsentUnguarded budget = pure false := by
  cases schema with
  | nullable | union | intersection | any | reference => cases h
  | leaf | list | struct | object | record | json => simp only [acceptsAbsentUnguarded]

section Budgets

variable {budget more : Nat}

namespace Schema

/-- With a greater budget every function of the question for absence answers alike, if it
answers. -/
def affording (budget more : Nat) : AbsenceWalk where
  ofSchema _ schema :=
    Refines (acceptsAbsentUnguarded budget schema) (acceptsAbsentUnguarded more schema)
  ofAny _ members :=
    Refines (anyAcceptsAbsentUnguarded budget members) (anyAcceptsAbsentUnguarded more members)
  ofAll _ members :=
    Refines (allAcceptAbsentUnguarded budget members) (allAcceptAbsentUnguarded more members)

/-- A reference spends some of the budget, so what it leads to has been dealt with. -/
theorem acceptsAbsentUnguarded_reference_refines (r : Reference) (hle : budget ≤ more)
    (ih : ∀ less < budget, ∀ schema more, less ≤ more →
      Refines (acceptsAbsentUnguarded less schema) (acceptsAbsentUnguarded more schema)) :
    Refines (acceptsAbsentUnguarded budget (.reference r))
      (acceptsAbsentUnguarded more (.reference r)) := by
  cases budget with
  | zero =>
    rw [acceptsAbsentUnguarded]
    exact .failure _
  | succ less =>
    obtain ⟨rest, rfl⟩ : ∃ rest, more = rest + 1 := ⟨more - 1, by omega⟩
    simp only [acceptsAbsentUnguarded]
    refine .bind (.refl _) fun target => ?_
    cases target with
    | none => exact .refl _
    | some target => exact ih less (Nat.lt_succ_self less) target rest (by omega)

theorem affording_inductive (hle : budget ≤ more)
    (ih : ∀ less < budget, ∀ schema more, less ≤ more →
      Refines (acceptsAbsentUnguarded less schema) (acceptsAbsentUnguarded more schema)) :
    (affording budget more).Inductive where
  nullable _ inner := by
    simp only [affording, acceptsAbsentUnguarded]
    exact .refl _
  any _ := by
    simp only [affording, acceptsAbsentUnguarded]
    exact .refl _
  union _ members hmembers := by
    simp only [affording, acceptsAbsentUnguarded]
    exact hmembers
  intersection _ members hmembers := by
    simp only [affording, acceptsAbsentUnguarded]
    exact hmembers
  followed _ r _ _ := acceptsAbsentUnguarded_reference_refines r hle ih
  blocked _ r _ := acceptsAbsentUnguarded_reference_refines r hle ih
  value _ schema h := by
    simp only [affording, acceptsAbsentUnguarded_of_needsValue h]
    exact .refl _
  anyDone _ := by
    simp only [affording, anyAcceptsAbsentUnguarded]
    exact .refl _
  anyMore _ member rest hmember hrest := by
    simp only [affording, anyAcceptsAbsentUnguarded]
    refine .bind hmember fun answer => ?_
    split
    · exact .refl _
    · exact hrest
  allDone _ := by
    simp only [affording, allAcceptAbsentUnguarded]
    exact .refl _
  allMore _ member rest hmember hrest := by
    simp only [affording, allAcceptAbsentUnguarded]
    refine .bind hmember fun answer => ?_
    split
    · exact hrest
    · exact .refl _

/-- With a greater budget the question for absence is answered alike, if it is answered. -/
theorem acceptsAbsentUnguarded_refines (budget : Nat) (schema : Schema) (more : Nat)
    (hle : budget ≤ more) :
    Refines (schema.acceptsAbsentUnguarded budget) (schema.acceptsAbsentUnguarded more) := by
  induction budget using Nat.strongRecOn generalizing schema more with
  | ind budget ih => exact (affording_inductive hle ih).holds [] schema

end Schema

/-- With a greater budget every function of a check without a guard gives the same, if it gives
anything. -/
def spending (budget more : Nat) : Walk where
  ofSchema rules schema value here :=
    Refines (checkUnguarded rules budget schema value here.path)
      (checkUnguarded rules more schema value here.path)
  ofChild rules child here :=
    Refines (checkChildUnguarded rules budget child here.path)
      (checkChildUnguarded rules more child here.path)
  ofChildren rules children here :=
    Refines (checkChildrenUnguarded rules budget children here.path)
      (checkChildrenUnguarded rules more children here.path)
  ofMembers rules index members value here :=
    Refines (checkMembersUnguarded rules budget index members value here.path)
      (checkMembersUnguarded rules more index members value here.path)
  ofEvery rules index members merged value here :=
    Refines (checkEveryUnguarded rules budget index members merged value here.path)
      (checkEveryUnguarded rules more index members merged value here.path)

/-- A reference spends some of the budget: without any there is no result to keep, and
otherwise what it leads to has been dealt with. -/
theorem checkUnguarded_reference_refines (rules : Rules) (r : Reference) (value : Json)
    (path : Path) (hle : budget ≤ more)
    (ih : ∀ less < budget, ∀ schema more, less ≤ more →
      Refines (checkUnguarded rules less schema value path)
        (checkUnguarded rules more schema value path)) :
    Refines (checkUnguarded rules budget (.reference r) value path)
      (checkUnguarded rules more (.reference r) value path) := by
  cases budget with
  | zero =>
    rw [checkUnguarded]
    exact .failure _
  | succ less =>
    obtain ⟨rest, rfl⟩ : ∃ rest, more = rest + 1 := ⟨more - 1, by omega⟩
    rw [checkUnguarded, checkUnguarded]
    refine .bind (.refl _) fun target => ?_
    cases target with
    | none => exact .refl _
    | some target => exact ih less (Nat.lt_succ_self less) target rest (by omega)

theorem spending_inductive (hle : budget ≤ more)
    (ih : ∀ less < budget, ∀ rules schema value path more, less ≤ more →
      Refines (checkUnguarded rules less schema value path)
        (checkUnguarded rules more schema value path)) :
    (spending budget more).Inductive where
  leaf rules leaf value here := by
    simp only [spending, checkUnguarded]
    exact .refl _
  null rules inner value here hnull := by
    simp only [spending, checkUnguarded, if_pos hnull]
    exact .refl _
  nullable rules inner value here hnull hinner := by
    simp only [spending, checkUnguarded, if_neg hnull]
    exact hinner
  union rules members value here hmembers := by
    simp only [spending, checkUnguarded]
    exact .bind hmembers fun result => .refl _
  intersection rules members value here hmembers := by
    simp only [spending, checkUnguarded]
    exact hmembers
  followed rules r value here _ _ :=
    checkUnguarded_reference_refines rules r value here.path hle fun less hl schema =>
      ih less hl rules schema value here.path
  blocked rules r value here _ :=
    checkUnguarded_reference_refines rules r value here.path hle fun less hl schema =>
      ih less hl rules schema value here.path
  plain rules schema value here hs hview := by
    simp only [spending, checkUnguarded_structural _ _ _ _ hs, hview]
    exact .refl _
  mismatch rules schema value here expected hview := by
    have hs : schema.isStructural := View.isStructural_of_ne_plain (by rw [hview]; simp)
    simp only [spending, checkUnguarded_structural _ _ _ _ hs, hview]
    exact .refl _
  deep rules schema value here children assemble hc hd := by
    obtain ⟨_, hview⟩ := View.of_container hc
    have hs : schema.isStructural := View.isStructural_of_ne_plain (by rw [hview]; simp)
    simp only [spending, checkUnguarded_structural _ _ _ _ hs, hview, hd, if_true]
    exact .refl _
  container rules schema value here children assemble hc hd hchildren := by
    obtain ⟨_, hview⟩ := View.of_container hc
    have hs : schema.isStructural := View.isStructural_of_ne_plain (by rw [hview]; simp)
    simp only [spending, checkUnguarded_structural _ _ _ _ hs, hview, hd, if_false]
    exact .bind hchildren fun result => .refl _
  present rules segment schema value here hvalue := by
    simp only [spending, checkChildUnguarded]
    exact .bind hvalue fun result => .refl _
  absent rules name schema here := by
    simp only [spending, checkChildUnguarded]
    exact .bind (.onStore (schema.acceptsAbsentUnguarded_refines budget more hle)) fun answer =>
      .refl _
  noChildren rules here := by
    simp only [spending, checkChildrenUnguarded]
    exact .refl _
  moreChildren rules child rest here hchild hrest := by
    simp only [spending, checkChildrenUnguarded]
    refine .bind hchild fun result => ?_
    cases result with
    | ok output => exact .bind hrest fun result => .refl _
    | error report =>
      dsimp only
      split
      · exact .bind hrest fun result => .refl _
      · exact .refl _
  noMembers rules index value here := by
    simp only [spending, checkMembersUnguarded]
    exact .refl _
  moreMembers rules index member rest value here hmember hrest := by
    simp only [spending, checkMembersUnguarded]
    refine .bind hmember fun result => ?_
    cases result with
    | ok output => exact .refl _
    | error report => exact .bind (.refl _) fun _ => .bind hrest fun result => .refl _
  everyDone rules index merged value here := by
    simp only [spending, checkEveryUnguarded]
    exact .refl _
  everyMore rules index member rest merged value here hmember hrest := by
    simp only [spending, checkEveryUnguarded]
    refine .bind hmember fun result => ?_
    cases result with
    | error causes => exact .refl _
    | ok output =>
      dsimp only
      split
      · exact hrest _
      · exact .refl _

end Budgets

/-- With a greater budget a check without a guard gives the same, if it gives anything. -/
theorem checkUnguarded_refines (rules : Rules) (budget : Nat) (schema : Schema) (value : Json)
    (path : Path) (more : Nat) (hle : budget ≤ more) :
    Refines (checkUnguarded rules budget schema value path)
      (checkUnguarded rules more schema value path) := by
  induction budget using Nat.strongRecOn generalizing rules schema value path more with
  | ind budget ih => exact (spending_inductive hle ih).holds rules schema value ⟨path, []⟩

end Conformance
