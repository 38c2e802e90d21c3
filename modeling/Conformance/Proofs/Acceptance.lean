import Conformance.Proofs.Absence
import Conformance.Proofs.Walk

/-!
# Acceptance without a session

Whether a check accepts, and with which output, depends on the policy, the
depth limit and the graph alone. `Grounds.accept` decides it without a store
and without reports, and `check_gives` says that every check agrees with it,
whichever cells are filled and however many rejections it reports.
-/

namespace Conformance

/-- What decides whether a value is accepted. -/
structure Grounds where
  /-- The policy for leaves. -/
  policy : Policy
  /-- How deep the value may nest. -/
  maxDepth : Nat
  /-- The schemas behind the cells. -/
  targets : Targets

/-- The grounds of a check that starts from a store. -/
def Rules.grounds (rules : Rules) (store : Store) : Grounds :=
  ⟨rules.policy, rules.maxDepth, store.target?⟩

namespace Grounds

mutual

/-- The output for a value at a depth, if it is accepted there while the references
through the cells in `entered` are being followed. -/
def accept (grounds : Grounds) (schema : Schema) (value : Json) (depth : Nat)
    (entered : List CellId) : Option Json :=
  match schema with
  | .leaf leaf => (grounds.policy.check leaf value).toOption
  | .nullable inner =>
    if value.isNull then some .null else accept grounds inner value depth entered
  | .union members => acceptFirst grounds members value depth entered
  | .intersection members => acceptEvery grounds members none value depth entered
  | .reference r =>
    if entered.length < maxHops ∧ r.cell ∉ entered then
      match grounds.targets r.cell with
      | some target => accept grounds target value depth (r.cell :: entered)
      | none => none
    else none
  | schema =>
    match View.of schema value with
    | .plain => some value
    | .mismatch _ => none
    | .container children assemble _ =>
      if grounds.maxDepth ≤ depth then none
      else (acceptChildren grounds children depth).map assemble
termination_by (value.nesting, maxHops - entered.length, sizeOf schema)
decreasing_by
  · decreasing_tactic
  · decreasing_tactic
  · decreasing_tactic
  · next h =>
    refine .right _ (.left _ _ ?_)
    rw [List.length_cons]
    omega
  · exact .left _ _ ‹_›

/-- The output for one child, if it is accepted; an absent child has none. -/
def acceptChild (grounds : Grounds) (child : Child) (depth : Nat) : Option (Option Json) :=
  match child with
  | .present _ schema value => (accept grounds schema value (depth + 1) []).map some
  | .absent _ schema => if schema.absentWithin grounds.targets [] then some none else none
termination_by (child.nesting, maxHops + 1, 0)
decreasing_by exact .right _ (.left _ _ (Nat.lt_succ_self _))

/-- The outputs of a row of children, if all are accepted. -/
def acceptChildren (grounds : Grounds) (children : List Child) (depth : Nat) :
    Option (List (Option Json)) :=
  match children with
  | [] => some []
  | child :: rest =>
    match acceptChild grounds child depth, acceptChildren grounds rest depth with
    | some output, some outputs => some (output :: outputs)
    | _, _ => none
termination_by (Child.nestingAll children, maxHops + 1, children.length)
decreasing_by
  · exact lex_of_le (Nat.le_max_left _ _) (.right _ (Nat.succ_pos _))
  · exact lex_of_le (Nat.le_max_right _ _) (.right _ (Nat.lt_succ_self _))

/-- The output of the first member that accepts. -/
def acceptFirst (grounds : Grounds) (members : List Schema) (value : Json) (depth : Nat)
    (entered : List CellId) : Option Json :=
  match members with
  | [] => none
  | member :: rest =>
    match accept grounds member value depth entered with
    | some output => some output
    | none => acceptFirst grounds rest value depth entered
termination_by (value.nesting, maxHops - entered.length, sizeOf members)

/-- The merged output of all members, if all accept and agree. -/
def acceptEvery (grounds : Grounds) (members : List Schema) (merged : Option Json)
    (value : Json) (depth : Nat) (entered : List CellId) : Option Json :=
  match members with
  | [] => some (merged.getD value)
  | member :: rest =>
    match accept grounds member value depth entered with
    | none => none
    | some output =>
      match mergeInto merged output with
      | .ok output => acceptEvery grounds rest (some output) value depth entered
      | .error _ => none
termination_by (value.nesting, maxHops - entered.length, sizeOf members)

end

/-- A reference that may be followed leads to the schema in its cell. -/
theorem accept_reference (grounds : Grounds) {r : Reference} (value : Json) (depth : Nat)
    {entered : List CellId} (h : entered.length < maxHops ∧ r.cell ∉ entered) :
    grounds.accept (.reference r) value depth entered =
      (grounds.targets r.cell).bind fun target =>
        grounds.accept target value depth (r.cell :: entered) := by
  rw [accept, if_pos h]
  cases grounds.targets r.cell <;> rfl

/-- A reference that may not be followed accepts nothing. -/
theorem accept_reference_blocked (grounds : Grounds) {r : Reference} (value : Json) (depth : Nat)
    {entered : List CellId} (h : ¬(entered.length < maxHops ∧ r.cell ∉ entered)) :
    grounds.accept (.reference r) value depth entered = none := by
  rw [accept, if_neg h]

/-- A structural schema goes by its view of the value. -/
theorem accept_structural (grounds : Grounds) {schema : Schema} (value : Json) (depth : Nat)
    (entered : List CellId) (hs : schema.isStructural) :
    grounds.accept schema value depth entered =
      match View.of schema value with
      | .plain => some value
      | .mismatch _ => none
      | .container children assemble _ =>
        if grounds.maxDepth ≤ depth then none
        else (grounds.acceptChildren children depth).map assemble := by
  cases schema with
  | leaf | nullable | union | intersection | reference => simp [Schema.isStructural] at hs
  | list _ | struct _ | object _ _ | record _ | json | any =>
    rw [accept]
    all_goals
      intros
      contradiction

/-- Above the limit a container is put together from the outputs of its
children. -/
theorem accept_container (grounds : Grounds) {schema : Schema} {value : Json}
    {children : List Child} {assemble : List (Option Json) → Json} (depth : Nat)
    (entered : List CellId) (h : Container schema value children assemble) :
    grounds.accept schema value depth entered =
      if grounds.maxDepth ≤ depth then none
      else (grounds.acceptChildren children depth).map assemble := by
  obtain ⟨_, hview⟩ := View.of_container h
  have hs : schema.isStructural := View.isStructural_of_ne_plain (by rw [hview]; simp)
  rw [accept_structural grounds value depth entered hs, hview]

/-- A leaf is decided by the policy. -/
theorem accept_leaf (grounds : Grounds) (leaf : Leaf) (value : Json) (depth : Nat)
    (entered : List CellId) :
    grounds.accept (.leaf leaf) value depth entered =
      (grounds.policy.check leaf value).toOption := by
  rw [accept]

/-- An object is put together from what its declared fields accept. -/
theorem accept_struct (grounds : Grounds) (fields : List (Field Schema))
    (entries : List (String × Json)) (depth : Nat) (entered : List CellId) :
    grounds.accept (.struct fields) (.object entries) depth entered =
      if grounds.maxDepth ≤ depth then none
      else (grounds.acceptChildren (fields.map (Child.ofField entries)) depth).map fun outputs =>
        .object (nameOutputs (fields.map Field.name) outputs) :=
  grounds.accept_container depth entered (.fields rfl)

/-- An object of a definition is put together as one without a name is. -/
theorem accept_object (grounds : Grounds) (name : String) (fields : List (Field Schema))
    (entries : List (String × Json)) (depth : Nat) (entered : List CellId) :
    grounds.accept (.object name fields) (.object entries) depth entered =
      if grounds.maxDepth ≤ depth then none
      else (grounds.acceptChildren (fields.map (Child.ofField entries)) depth).map fun outputs =>
        .object (nameOutputs (fields.map Field.name) outputs) :=
  grounds.accept_container depth entered (.fields rfl)

end Grounds

/-- A run of a step gives a result, rejections aside, and leaves every cell leading
where it did. -/
def Session.Gives {ε α : Type} (session : Session) (run : Except ε α × Session)
    (result : Option α) : Prop :=
  run.1.toOption = result ∧ run.2.store.target? = session.store.target?

/-- Sessions with one graph give checks the same grounds. -/
theorem Rules.grounds_congr (rules : Rules) {s t : Store} (h : s.target? = t.target?) :
    rules.grounds s = rules.grounds t := by
  simp only [Rules.grounds, h]

/-- Every function of a check gives what its counterpart without a session gives. -/
def agreement : Walk where
  ofSchema rules schema value here := ∀ session : Session,
    session.Gives (check rules schema value here session)
      ((rules.grounds session.store).accept schema value here.path.length here.entered)
  ofChild rules child here := ∀ session : Session,
    session.Gives (checkChild rules child here session)
      ((rules.grounds session.store).acceptChild child here.path.length)
  ofChildren rules children here := ∀ session : Session,
    session.Gives (checkChildren rules children here session)
      ((rules.grounds session.store).acceptChildren children here.path.length)
  ofMembers rules index members value here := ∀ session : Session,
    session.Gives (checkMembers rules index members value here session)
      ((rules.grounds session.store).acceptFirst members value here.path.length here.entered)
  ofEvery rules index members merged value here := ∀ session : Session,
    session.Gives (checkEvery rules index members merged value here session)
      ((rules.grounds session.store).acceptEvery members merged value here.path.length
        here.entered)

theorem agreement_inductive : agreement.Inductive where
  leaf rules leaf value here session := by
    rw [check_leaf, Grounds.accept]
    change session.Gives _ (rules.policy.check leaf value).toOption
    cases rules.policy.check leaf value <;> exact ⟨rfl, rfl⟩
  null rules inner value here h session := by
    rw [check_nullable_null rules value here session inner h, Grounds.accept, if_pos h]
    exact ⟨rfl, rfl⟩
  nullable rules inner value here h ih session := by
    rw [check_nullable rules value here session inner h, Grounds.accept, if_neg h]
    exact ih session
  union rules members value here ih session := by
    obtain ⟨hr, ht⟩ := ih session
    rw [check_union, Grounds.accept]
    rcases hm : checkMembers rules.failFast 0 members value here session with ⟨_ | _, later⟩ <;>
      rw [hm] at hr ht <;> exact ⟨hr, ht⟩
  intersection rules members value here ih session := by
    rw [check_intersection, Grounds.accept]
    exact ih session
  followed rules r value here h ih session := by
    obtain ⟨later, hf, ht⟩ := Session.onStore_fetch? session r.cell
    rw [check_reference rules value here session h, hf, Grounds.accept_reference _ _ _ h]
    change session.Gives _ ((session.store.target? r.cell).bind _)
    cases session.store.target? r.cell with
    | none => exact ⟨rfl, ht⟩
    | some target =>
      obtain ⟨hr, hl⟩ := ih target later
      rw [rules.grounds_congr ht] at hr
      exact ⟨hr, hl.trans ht⟩
  blocked rules r value here h session := by
    rw [check_reference_blocked rules value here session h,
      Grounds.accept_reference_blocked _ _ _ h]
    exact ⟨rfl, rfl⟩
  plain rules schema value here hs hview session := by
    rw [check_plain rules value here session hs hview, Grounds.accept_structural _ _ _ _ hs, hview]
    exact ⟨rfl, rfl⟩
  mismatch rules schema value here expected hview session := by
    have hs : schema.isStructural := View.isStructural_of_ne_plain (by rw [hview]; simp)
    rw [check_mismatch rules value here session hview, Grounds.accept_structural _ _ _ _ hs, hview]
    exact ⟨rfl, rfl⟩
  deep rules schema value here children assemble hc hd session := by
    rw [check_deep hc hd, Grounds.accept_container _ _ _ hc]
    exact ⟨(if_pos hd).symm, rfl⟩
  container rules schema value here children assemble hc hd ih session := by
    obtain ⟨hr, ht⟩ := ih session
    rw [check_container hc hd, Grounds.accept_container _ _ _ hc, if_neg (by exact hd), ← hr]
    rcases hm : checkChildren rules children here session with ⟨_ | _, later⟩ <;>
      rw [hm] at ht <;> exact ⟨rfl, ht⟩
  present rules segment schema value here ih session := by
    obtain ⟨hr, ht⟩ := ih session
    rw [checkChild_present, Grounds.acceptChild]
    have hdepth : (here.child segment).path.length = here.path.length + 1 := by
      simp [Position.child]
    rw [hdepth] at hr
    change _ = (rules.grounds session.store).accept schema value (here.path.length + 1) [] at hr
    rw [← hr]
    rcases hm : check rules schema value (here.child segment) session with ⟨_ | _, later⟩ <;>
      rw [hm] at ht <;> exact ⟨rfl, ht⟩
  absent rules name schema here session := by
    obtain ⟨later, hrun, ht⟩ := schema.onStore_acceptsAbsent session
    rw [checkChild_absent, hrun, Grounds.acceptChild]
    change session.Gives _ (if schema.absentWithin session.store.target? [] then _ else _)
    cases schema.absentWithin session.store.target? [] <;> exact ⟨rfl, ht⟩
  noChildren rules here session := by
    rw [checkChildren_nil, Grounds.acceptChildren]
    exact ⟨rfl, rfl⟩
  moreChildren rules child rest here ihc ihr session := by
    obtain ⟨hr, ht⟩ := ihc session
    rw [checkChildren_cons, Grounds.acceptChildren, ← hr]
    rcases hm : checkChild rules child here session with ⟨report | output, later⟩ <;>
      rw [hm] at ht <;> obtain ⟨hr', ht'⟩ := ihr later <;> dsimp only
    · split
      · rcases hm' : checkChildren rules rest here later with ⟨_ | _, last⟩ <;>
          rw [hm'] at ht' <;> exact ⟨rfl, ht'.trans ht⟩
      · exact ⟨rfl, ht⟩
    · rw [← rules.grounds_congr ht, ← hr']
      rcases hm' : checkChildren rules rest here later with ⟨_ | _, last⟩ <;>
        rw [hm'] at ht' <;> exact ⟨rfl, ht'.trans ht⟩
  noMembers rules index value here session := by
    rw [checkMembers_nil, Grounds.acceptFirst]
    exact ⟨rfl, rfl⟩
  moreMembers rules index member rest value here ihm ihr session := by
    obtain ⟨hr, ht⟩ := ihm session
    rw [checkMembers_cons, Grounds.acceptFirst, ← hr]
    rcases hm : check rules member value here session with ⟨report | output, later⟩ <;>
      rw [hm] at ht
    · obtain ⟨hr', ht'⟩ := ihr (Session.record (.memberRejected index report.head) later).2
      have hstore : (Session.record (.memberRejected index report.head) later).2.store =
          later.store := rfl
      rw [hstore, rules.grounds_congr ht] at hr'
      dsimp only [Except.toOption]
      rw [← hr']
      rcases hm' : checkMembers rules (index + 1) rest value here
          (Session.record (.memberRejected index report.head) later).2 with ⟨_ | _, last⟩ <;>
        rw [hm'] at ht' <;> exact ⟨rfl, ht'.trans ht⟩
    · exact ⟨rfl, ht⟩
  everyDone rules index merged value here session := by
    rw [checkEvery_nil, Grounds.acceptEvery]
    exact ⟨rfl, rfl⟩
  everyMore rules index member rest merged value here ihm ihr session := by
    obtain ⟨hr, ht⟩ := ihm session
    rw [checkEvery_cons, Grounds.acceptEvery, ← hr]
    rcases hm : check rules member value here session with ⟨report | output, later⟩ <;>
      rw [hm] at ht
    · exact ⟨rfl, ht⟩
    · simp only [Except.toOption]
      cases mergeInto merged output with
      | error way => exact ⟨rfl, ht⟩
      | ok both =>
        obtain ⟨hr', ht'⟩ := ihr both later
        rw [rules.grounds_congr ht] at hr'
        exact ⟨hr', ht'.trans ht⟩

/-- Every check gives what is accepted without a session. -/
theorem check_gives (rules : Rules) (schema : Schema) (value : Json) (here : Position)
    (session : Session) :
    session.Gives (check rules schema value here session)
      ((rules.grounds session.store).accept schema value here.path.length here.entered) :=
  agreement_inductive.holds rules schema value here session

/-- The check of a child leaves every cell leading where it did. -/
theorem checkChild_target? (rules : Rules) (child : Child) (here : Position) (session : Session) :
    (checkChild rules child here session).2.store.target? = session.store.target? := by
  cases child with
  | present segment schema value =>
    obtain ⟨_, ht⟩ := check_gives rules schema value (here.child segment) session
    rw [checkChild_present]
    rcases hc : check rules schema value (here.child segment) session with ⟨_ | _, later⟩ <;>
      rw [hc] at ht <;> exact ht
  | absent name schema =>
    obtain ⟨later, hrun, ht⟩ := schema.onStore_acceptsAbsent session
    rw [checkChild_absent, hrun]
    cases schema.absentWithin session.store.target? [] <;> exact ht

/-- A result is an output exactly if it gives this output. -/
theorem Session.Gives.ok_iff {ε α : Type} {session : Session} {run : Except ε α × Session}
    {result : Option α} (h : session.Gives run result) (output : α) :
    run.1 = .ok output ↔ result = some output := by
  rw [← h.1]
  cases run.1 <;> simp [Except.toOption]

/-- A validator gives what is accepted at the root, and its events change nothing. -/
theorem Validator.validate_gives (validator : Validator) (value : Json) (session : Session) :
    session.Gives (validator.validate value session)
      ((validator.grounds session.store).accept validator.schema value 0 []) := by
  obtain ⟨hr, ht⟩ := check_gives validator.toRules validator.schema value .root session
  rw [Validator.validate_eq]
  rcases hc : check validator.toRules validator.schema value .root session with ⟨_ | _, later⟩ <;>
    rw [hc] at hr ht <;> exact ⟨hr, ht⟩

/-- A validator accepts with an output exactly if it is accepted without a session. -/
theorem Validator.validate_eq_ok_iff (validator : Validator) (value output : Json)
    (session : Session) :
    (validator.validate value session).1 = .ok output ↔
      (validator.grounds session.store).accept validator.schema value 0 [] = some output :=
  (validator.validate_gives value session).ok_iff output

end Conformance
