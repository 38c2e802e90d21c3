import Conformance.Check.Traversal
import Conformance.Proofs.Repetition
import Conformance.Proofs.Survey
import Mathlib.Order.Filter.AtTopBot.Basic
import Mathlib.Order.Filter.Finite

/-!
# The traversal is the check

The walk that keeps its state in one place and puts back what it changes is the check that
hands its position down. From every state that says where the check stands, the walk ends if
it has enough budget, with the same outcome and in the same session, and in the state that it
started from. So after each step the stack has the way to the node again, the references that were entered
before are entered again, and the mode is that of the caller.

What a loop gives is found by induction over its row, with what it has gathered so far. A row
of entries gathers its outputs by inserting them, which puts each at the end because no name
comes twice.
-/

namespace Conformance

/-- A name that the row lacks goes to its end. -/
theorem Entries.insert_of_not_mem {α : Type} {name : String} {value : α}
    {row : List (String × α)} (h : name ∉ row.map Prod.fst) :
    Entries.insert name value row = row ++ [(name, value)] := by
  induction row with
  | nil => rfl
  | cons entry rest ih =>
    obtain ⟨n, v⟩ := entry
    rw [List.map_cons, List.mem_cons, not_or] at h
    rw [Entries.insert, if_neg (Ne.symm h.1), ih h.2, List.cons_append]

namespace Traversal

open Filter (atTop eventually_atTop eventually_all_finite)

variable {targets : Targets} {t : Traversal} {rules : Rules} {here : Position} {α β δ ξ : Type}

/-- A state says under which rules a check runs, and where it stands. -/
structure Stands (t : Traversal) (rules : Rules) (here : Position) : Prop where
  /-- The policy is that of the rules. -/
  policy : t.policy = rules.policy
  /-- Loops go on if all rejections are reported. -/
  collectAll : t.collectAll = decide (rules.mode = .collectAll)
  /-- The limit is that of the rules. -/
  maxDepth : t.maxDepth = rules.maxDepth
  /-- The stack has the way to the node. -/
  path : t.path.toList = here.path
  /-- The references lead through the cells that are being followed, the last one first. -/
  entered : (t.entered.toList.map Reference.cell).reverse = here.entered

/-- From a state a step of a walk ends as a step on the session does, in the same state again,
and every cell leads where it did. -/
def Balanced (targets : Targets) (t : Traversal) (act : Traversing α) (step : StateM Session α) :
    Prop :=
  ∀ session : Session, session.store.target? = targets →
    act t session = some (((step session).1, t), (step session).2) ∧
      (step session).2.store.target? = targets

section Steps

/-- Goes on after a step that ended. -/
theorem bind_apply {act : Traversing α} {next : α → Traversing β} {u : Traversal}
    {session later : Session} {a : α} (h : act t session = some ((a, u), later)) :
    (act >>= next) t session = next a u later := by
  simp only [bind, StateT.bind, h, Option.bind_some]

/-- A result without a step. -/
theorem Balanced.pure (a : α) : Balanced targets t (pure a) (pure a) :=
  fun _ hs => ⟨rfl, hs⟩

/-- One step after another. -/
theorem Balanced.bind {act : Traversing α} {step : StateM Session α} {next : α → Traversing β}
    {onward : α → StateM Session β} (h : Balanced targets t act step)
    (hnext : ∀ a, Balanced targets t (next a) (onward a)) :
    Balanced targets t (act >>= next) (step >>= onward) := by
  intro session hs
  obtain ⟨hact, hlater⟩ := h session hs
  rw [bind_apply hact]
  exact hnext _ _ hlater

/-- A step that reads the state. -/
theorem Balanced.get {next : Traversal → Traversing α} {step : StateM Session α}
    (h : Balanced targets t (next t) step) : Balanced targets t (get >>= next) step := h

/-- A step on the session that leaves every cell leading where it did. -/
theorem Balanced.onSession {step : StateM Session α}
    (h : ∀ session, (step session).2.store.target? = session.store.target?) :
    Balanced targets t (Traversal.onSession step) step :=
  fun session hs => ⟨rfl, (h session).trans hs⟩

/-- An event is recorded. -/
theorem Balanced.record (event : Event) :
    Balanced targets t (Traversal.onSession (Session.record event)) (Session.record event) :=
  .onSession fun _ => rfl

/-- Goes on after one turn of a loop: to the end when the loop is done, and else to the next
turn. -/
def turn (finish onward : β → Traversing δ) : ForInStep β → Traversing δ
  | .done b => finish b
  | .yield b => onward b

/-- A loop gives what is said of its whole row, if each turn takes what is said of the row
after it to what is said of the row from it on. -/
theorem Balanced.forIn {body : ξ → β → Traversing (ForInStep β)} {finish : β → Traversing δ}
    (given : List ξ → β → StateM Session δ) (fresh : List ξ → β → Prop) {row : List ξ}
    (hdone : ∀ b, Balanced targets t (finish b) (given [] b))
    (hturn : ∀ x rest b, x ∈ row → fresh (x :: rest) b → ∀ onward : β → Traversing δ,
      (∀ b, fresh rest b → Balanced targets t (onward b) (given rest b)) →
      Balanced targets t (body x b >>= turn finish onward) (given (x :: rest) b))
    {b : β} (hfresh : fresh row b) :
    Balanced targets t (ForIn.forIn row b body >>= finish) (given row b) := by
  induction row generalizing b with
  | nil =>
    rw [List.forIn_nil, pure_bind]
    exact hdone b
  | cons x rest ih =>
    have hrest (b : β) := ih (b := b) fun y more b hy => hturn y more b (List.mem_cons_of_mem _ hy)
    rw [List.forIn_cons, bind_assoc]
    convert hturn x rest b List.mem_cons_self hfresh _ hrest using 2
    funext step
    cases step with
    | done b => rw [pure_bind, turn]
    | yield b => rfl

end Steps

section Stands

/-- The rejection of the node. -/
theorem Stands.fail (h : t.Stands rules here) (cause : Cause) :
    Balanced targets t (fail cause) (pure (here.reject cause)) := by
  refine fun session hs => ⟨?_, hs⟩
  rw [Position.reject, ← h.path]
  rfl

/-- The state after a step down. -/
def down (t : Traversal) (segment : Segment) : Traversal :=
  { t with path := t.path.push segment, entered := #[] }

/-- A step down puts the segment on the stack and enters no reference. -/
theorem Stands.down (h : t.Stands rules here) (segment : Segment) :
    (t.down segment).Stands rules (here.child segment) where
  policy := h.policy
  collectAll := h.collectAll
  maxDepth := h.maxDepth
  path := by rw [Traversal.down, Array.toList_push, h.path, Position.child]
  entered := rfl

/-- Inside a union loops end at the first rejection. -/
theorem Stands.failFast (h : t.Stands rules here) :
    Stands { t with collectAll := false } rules.failFast here where
  policy := h.policy
  collectAll := rfl
  maxDepth := h.maxDepth
  path := h.path
  entered := h.entered

/-- A reference is entered. -/
theorem Stands.enter (h : t.Stands rules here) (r : Reference) :
    Stands { t with entered := t.entered.push r } rules (here.enter r.cell) where
  policy := h.policy
  collectAll := h.collectAll
  maxDepth := h.maxDepth
  path := h.path
  entered := by
    rw [Position.enter, ← h.entered]
    simp

/-- A reference may be entered if it may be followed. -/
theorem Stands.mayEnter_iff (h : t.Stands rules here) (r : Reference) :
    (t.entered.size ≥ maxHops ∨ (t.entered.any fun seen => seen.sameTarget r) = true) ↔
      ¬here.mayEnter r.cell := by
  have hlength : here.entered.length = t.entered.size := by simp [← h.entered]
  have hmem : r.cell ∈ here.entered ↔ (t.entered.any fun seen => seen.sameTarget r) = true := by
    simp only [← h.entered, ← Array.any_toList, List.any_eq_true, Reference.sameTarget,
      List.mem_reverse, List.mem_map, beq_iff_eq]
  rw [Position.mayEnter, hlength, ← hmem, not_and_or, not_lt, not_not]

/-- The rejection of a child. -/
theorem Stands.failAt (h : t.Stands rules here) (segment : Segment) (cause : Cause) :
    Balanced targets t (failAt segment cause) (pure ((here.child segment).reject cause)) := by
  refine fun session hs => ⟨?_, hs⟩
  have hrun : Traversal.failAt segment cause t session = some
      ((.singleton ⟨(t.path.push segment).toList, cause⟩,
        { t with path := (t.path.push segment).pop }), session) := rfl
  rw [hrun, Array.pop_push, Array.toList_push, h.path]
  rfl

/-- A container is entered above the depth limit, and rejected at it. -/
theorem Stands.enterContainer (h : t.Stands rules here) :
    Balanced targets t (Traversal.enter here.path.length) (pure
      (if rules.maxDepth ≤ here.path.length then
        Except.error (here.reject (.depthExceeded rules.maxDepth)) else Except.ok ())) := by
  rw [← h.maxDepth]
  refine fun session hs => ⟨?_, hs⟩
  have hrun : Traversal.enter here.path.length t session =
      (if here.path.length ≥ t.maxDepth then (do
          return Except.error (← Traversal.fail (.depthExceeded t.maxDepth)) :
            Traversing (Except Report Unit))
        else pure (Except.ok ())) t session := by
    rfl
  by_cases hd : t.maxDepth ≤ here.path.length
  · rw [hrun, if_pos hd, bind_apply (h.fail (.depthExceeded t.maxDepth) session hs).1, if_pos hd]
    rfl
  · rw [hrun, if_neg hd, if_neg hd]
    rfl

/-- The outcome of a merge at a position, with the conflict of a member if there is one. -/
def merged (here : Position) (index : Nat) (result : Except Path Json) : Outcome :=
  match result with
  | .ok together => .ok together
  | .error way => .error (.singleton ⟨here.path ++ way, .conflict index⟩)

/-- One more entry is put at the end of an object, unless it has the key already. -/
theorem mergeOutputs_cons (entries rest : List (String × Json)) (key : String) (item : Json) :
    mergeOutputs (.object entries) (.object ((key, item) :: rest)) =
      match Entries.lookup key entries with
      | some existing =>
        if existing.sameData item then mergeOutputs (.object entries) (.object rest)
        else .error [.key key]
      | none => mergeOutputs (.object (entries ++ [(key, item)])) (.object rest) := by
  rw [mergeOutputs, mergeEntries]
  cases Entries.lookup key entries with
  | none => rfl
  | some existing => by_cases hsame : existing.sameData item <;> simp only [hsame] <;> rfl

/-- The loop over the entries of a further object merges them into those of an object. -/
theorem Stands.mergeLoop (h : t.Stands rules here) (index : Nat)
    (entries addition : List (String × Json)) :
    Balanced targets t (Traversal.merge (.object entries) (.object addition) index)
      (pure (merged here index (mergeOutputs (.object entries) (.object addition)))) := by
  refine Balanced.forIn
    (fun rest (b : Option Outcome × List (String × Json)) => pure (match b.1 with
      | some outcome => outcome
      | none => merged here index (mergeOutputs (.object b.2) (.object rest))))
    (fun _ b => b.1 = none) (b := (none, entries)) ?_ ?_ rfl
  · rintro ⟨_ | outcome, entries⟩
    · exact .pure _
    · exact .pure _
  · rintro ⟨key, item⟩ rest ⟨_, entries⟩ _ rfl onward honward
    dsimp only
    rw [mergeOutputs_cons]
    cases hl : Entries.lookup key entries with
    | none =>
      dsimp only
      rw [pure_bind, Entries.insert_of_not_mem (Entries.lookup_eq_none_iff.mp hl)]
      exact honward (none, entries ++ [(key, item)]) rfl
    | some existing =>
      dsimp only
      split
      · rw [pure_bind]
        exact honward (none, entries) rfl
      · rw [bind_assoc]
        intro session hs
        rw [bind_apply (h.failAt (.key key) (.conflict index) session hs).1, pure_bind]
        exact ⟨rfl, hs⟩

/-- Two outputs are merged as the check merges them. -/
theorem Stands.merge (h : t.Stands rules here) (index : Nat) (previous next : Json) :
    Balanced targets t (Traversal.merge previous next index)
      (pure (merged here index (mergeOutputs previous next))) := by
  by_cases hobjects : ∃ entries addition, previous = .object entries ∧ next = .object addition
  · obtain ⟨entries, addition, rfl, rfl⟩ := hobjects
    exact h.mergeLoop index entries addition
  · have hnot : ∀ entries addition, previous = .object entries → next = .object addition → False :=
      fun entries addition hp hn => hobjects ⟨entries, addition, hp, hn⟩
    rw [Traversal.merge.eq_2 _ _ _ hnot, mergeOutputs.eq_2 _ _ hnot]
    split
    · exact .pure _
    · intro session hs
      rw [bind_apply (h.fail (.conflict index) session hs).1, merged, List.append_nil]
      exact ⟨rfl, hs⟩

end Stands

section Children

/-- The failures so far, with one more after them. -/
def joined (errors : Option Report) (failure : Report) : Report :=
  match errors with
  | some existing => existing.append failure
  | none => failure

/-- Failures are joined in whatever groups they come. -/
theorem joined_joined (errors : Option Report) (failure more : Report) :
    joined (some (joined errors failure)) more = joined errors (failure.append more) := by
  cases errors with
  | none => rfl
  | some existing =>
    simp only [joined, NonEmpty.append, NonEmpty.toList, List.append_assoc, List.cons_append]

/-- A failure is put after the others, and the mode says whether to go on. -/
theorem absorb_apply (errors : Option Report) (failure : Report) {session : Session} :
    absorb errors failure t session =
      some (((joined errors failure, t.collectAll), t), session) := rfl

/-- One turn of a loop over children, which puts an output to the others. -/
def gather (act : Traversing (Except Report (Option Json))) (put : Json → β → β)
    (b : β × Option Report) : Traversing (ForInStep (β × Option Report)) := do
  match ← act with
  | .ok (some accepted) => return .yield (put accepted b.1, b.2)
  | .ok none => return .yield b
  | .error failure =>
    let (all, goOn) ← absorb b.2 failure
    if goOn then return .yield (b.1, some all)
    return .done (b.1, some all)

/-- What a row of outputs comes to, each put to the ones before it. -/
def collect (put : ξ → Json → β → β) : List ξ → List (Option Json) → β → β
  | [], _, b => b
  | _ :: _, [], b => b
  | x :: row, output :: outputs, b =>
    collect put row outputs (output.elim b fun accepted => put x accepted b)

/-- The check of a row of children after some that gave these failures, and the whole that
their outputs make. -/
def gathered (rules : Rules) (children : List Child) (here : Position) (errors : Option Report)
    (whole : List (Option Json) → Json) : StateM Session Outcome := fun session =>
  match checkChildren rules children here session with
  | (.ok outputs, later) => (finish errors (whole outputs), later)
  | (.error report, later) => (.error (joined errors report), later)

variable {child : Child} {rest : List Child} {errors : Option Report} {session later : Session}
  {whole : List (Option Json) → Json} {report : Report}

/-- A child that accepts has its output before those of the others. -/
theorem gathered_ok {output : Option Json}
    (h : checkChild rules child here session = (.ok output, later)) :
    gathered rules (child :: rest) here errors whole session =
      gathered rules rest here errors (fun outputs => whole (output :: outputs)) later := by
  simp only [gathered, checkChildren_cons, h]
  rcases checkChildren rules rest here later with ⟨_ | _, last⟩ <;> rfl

/-- A child that rejects has its failure before those of the others. -/
theorem gathered_error (h : checkChild rules child here session = (.error report, later))
    (hm : rules.mode = .collectAll) :
    gathered rules (child :: rest) here errors whole session =
      gathered rules rest here (some (joined errors report)) whole later := by
  simp only [gathered, checkChildren_cons, h, if_pos hm]
  rcases checkChildren rules rest here later with ⟨more | _, last⟩
  · dsimp only
    rw [joined_joined]
  · rfl

/-- Where only the first failure counts, a child that rejects is the last. -/
theorem gathered_stop (h : checkChild rules child here session = (.error report, later))
    (hm : rules.mode ≠ .collectAll) :
    gathered rules (child :: rest) here errors whole session =
      (.error (joined errors report), later) := by
  simp only [gathered, checkChildren_cons, h, if_neg hm]

/-- A loop over children gives what their check gives, with their outputs put one to
another. -/
theorem Stands.loop (h : t.Stands rules here) {row : List ξ} {asChild : ξ → Child}
    {act : ξ → Traversing (Except Report (Option Json))} {put : ξ → Json → β → β}
    (hact : ∀ x ∈ row, Balanced targets t (act x) (checkChild rules (asChild x) here)) (b : β)
    (whole : β → Json) :
    Balanced targets t
      (ForIn.forIn row (b, none) (fun x b => gather (act x) (put x) b) >>= fun b =>
        pure (finish b.2 (whole b.1)))
      (gathered rules (row.map asChild) here none fun outputs =>
        whole (collect put row outputs b)) := by
  refine Balanced.forIn
    (fun rest (b : β × Option Report) => gathered rules (rest.map asChild) here b.2
      fun outputs => whole (collect put rest outputs b.1))
    (fun _ b => b.2 = none ∨ rules.mode = .collectAll) (b := (b, none)) ?_ ?_ (.inl rfl)
  · intro b session hs
    rw [List.map_nil, gathered, checkChildren_nil]
    exact ⟨rfl, hs⟩
  · intro x rest b hx hfresh onward honward session hs
    obtain ⟨hrun, hlater⟩ := hact x hx session hs
    rw [gather, bind_assoc, bind_apply hrun, List.map_cons]
    rcases hc : checkChild rules (asChild x) here session with ⟨failure | _ | output, later⟩ <;>
      rw [hc] at hlater
    · dsimp only
      rw [bind_assoc, bind_apply (absorb_apply b.2 failure), h.collectAll]
      by_cases hm : rules.mode = .collectAll
      · rw [gathered_error hc hm, if_pos (decide_eq_true hm), pure_bind]
        exact honward (b.1, some (joined b.2 failure)) (.inr hm) later hlater
      · rw [gathered_stop hc hm, if_neg (by simpa using hm), pure_bind]
        exact ⟨rfl, hlater⟩
    · rw [gathered_ok hc]
      exact honward b hfresh later hlater
    · rw [gathered_ok hc]
      exact honward (put x output b.1, b.2) hfresh later hlater

end Children

section Containers

/-- Outputs that are pushed stand at the end, in order. -/
theorem toList_collect_push {row : List ξ} {outputs : List (Option Json)}
    (h : outputs.length = row.length) (b : Array Json) :
    (collect (fun _ accepted (output : Array Json) => output.push accepted) row outputs b).toList =
      b.toList ++ outputs.filterMap fun output => output := by
  induction row generalizing outputs b with
  | nil =>
    rw [List.length_nil, List.length_eq_zero_iff] at h
    rw [h, List.filterMap_nil, List.append_nil]
    rfl
  | cons x row ih =>
    cases outputs with
    | nil => cases h
    | cons output outputs =>
      rw [collect, ih (Nat.succ.inj h)]
      cases output with
      | none => rfl
      | some accepted =>
        rw [Option.elim_some, Array.toList_push, List.append_assoc]
        rfl

/-- Outputs that are inserted under different names, new to the row, stand at its end. -/
theorem collect_insert {name : ξ → String} {row : List ξ} (hnames : (row.map name).Nodup)
    (outputs : List (Option Json)) {b : List (String × Json)}
    (hnew : ∀ x ∈ row, name x ∉ b.map Prod.fst) :
    collect (fun x accepted output => Entries.insert (name x) accepted output) row outputs b =
      b ++ nameOutputs (row.map name) outputs := by
  induction row generalizing outputs b with
  | nil => rw [collect, List.map_nil, nameOutputs, List.zip_nil_left, List.filterMap_nil,
      List.append_nil]
  | cons x row ih =>
    rw [List.map_cons, List.nodup_cons] at hnames
    rw [List.forall_mem_cons] at hnew
    cases outputs with
    | nil => rw [collect, nameOutputs_nil, List.append_nil]
    | cons output outputs =>
      rw [collect, List.map_cons]
      cases output with
      | none => rw [Option.elim_none, nameOutputs_cons_none, ih hnames.2 _ hnew.2]
      | some accepted =>
        rw [Option.elim_some, nameOutputs_cons_some, Entries.insert_of_not_mem hnew.1,
          ih hnames.2, List.append_assoc, List.singleton_append]
        intro y hy hm
        rw [List.map_append, List.mem_append, List.map_singleton, List.mem_singleton] at hm
        rcases hm with hm | hm
        · exact hnew.2 y hy hm
        · exact hnames.1 (List.mem_map.mpr ⟨y, hy, hm⟩)

/-- A row of children that is accepted has an output for each. -/
theorem length_of_checkChildren {children : List Child} {session later : Session}
    {outputs : List (Option Json)}
    (h : checkChildren rules children here session = (.ok outputs, later)) :
    outputs.length = children.length := by
  induction children generalizing session outputs later with
  | nil =>
    rw [checkChildren_nil] at h
    cases h
    rfl
  | cons child rest ih =>
    rw [checkChildren_cons] at h
    split at h
    · split at h
      · next hrest =>
        cases h
        rw [List.length_cons, List.length_cons, ih hrest]
      · cases h
    · split at h
      · split at h <;> cases h
      · cases h

/-- The walk of one child. -/
def walkChild (onward : Onward) (depth : Nat) : Child → Traversing (Except Report (Option Json))
  | .present segment schema value => do return (← descend onward segment schema value depth).map some
  | .absent name schema => do
    if ← onSession (Session.onStore schema.acceptsAbsent) then return .ok none
    return .error (← failAt (.key name) (.missingField name))

/-- The walk of a row of children, each put to the outputs of the ones before it. -/
def walkRow (onward : Onward) (depth : Nat) (row : List ξ) (asChild : ξ → Child) (put : ξ → Json → β → β)
    (whole : β → Json) (b : β) : Traversing Outcome := do
  if let .error failure ← enter depth then return .error failure
  let b ← ForIn.forIn row (b, none) fun x b => gather (walkChild onward depth (asChild x)) (put x) b
  return finish b.2 (whole b.1)

/-- A loop over a row is its walk if each turn is that of the child. -/
theorem walkRow_of_body {depth : Nat} {row : List ξ} {asChild : ξ → Child}
    {put : ξ → Json → β → β} {whole : β → Json} {b : β}
    {body : ξ → β × Option Report → Traversing (ForInStep (β × Option Report))}
    (h : ∀ x b, body x b = gather (walkChild onward depth (asChild x)) (put x) b) :
    walkRow onward depth row asChild put whole b = do
      if let .error failure ← enter depth then return .error failure
      let b ← ForIn.forIn row (b, none) body
      return finish b.2 (whole b.1) := by
  rw [walkRow, funext₂ h]

variable {onward : Onward} {schema : Schema}

/-- The walk of a list. -/
theorem step_items {element : Schema} (h : schema.itemSchema? = some element)
    (items : List Json) (depth : Nat) :
    step onward schema (.array items) depth =
      walkRow onward depth items.zipIdx (fun item => .present (.index item.2) element item.1)
        (fun _ accepted (output : Array Json) => output.push accepted)
        (fun output => .array output.toList) #[] := by
  have hlist : step onward schema (.array items) depth = list onward element (.array items) depth := by
    cases schema with
    | list inner =>
      cases h
      rfl
    | json =>
      cases h
      rfl
    | _ => cases h
  rw [hlist, Traversal.list]
  symm
  refine walkRow_of_body fun item b => ?_
  rw [gather, walkChild, bind_assoc]
  refine bind_congr fun outcome => ?_
  cases outcome <;> rfl

/-- The walk of a record. -/
theorem step_entries {entry : Schema} (h : schema.entrySchema? = some entry)
    (entries : List (String × Json)) (depth : Nat) :
    step onward schema (.object entries) depth =
      walkRow onward depth entries (fun item => .present (.key item.1) entry item.2)
        (fun item accepted output => Entries.insert item.1 accepted output) .object [] := by
  have hrecord : step onward schema (.object entries) depth = record onward entry (.object entries) depth := by
    cases schema with
    | record inner =>
      cases h
      rfl
    | json =>
      cases h
      rfl
    | _ => cases h
  rw [hrecord, Traversal.record]
  symm
  refine walkRow_of_body fun item b => ?_
  rw [gather, walkChild, bind_assoc]
  refine bind_congr fun outcome => ?_
  cases outcome <;> rfl

/-- A declared field is walked as the child that it asks for. -/
theorem field_eq (declared : Field Schema) (entries : List (String × Json)) (depth : Nat) :
    field onward declared entries depth = walkChild onward depth (Child.ofField entries declared) := by
  rw [field, Child.ofField]
  cases Entries.lookup declared.name entries <;> rw [walkChild]

/-- The walk of an object with declared fields. -/
theorem step_fields {fields : List (Field Schema)} (h : schema.fields? = some fields)
    (entries : List (String × Json)) (depth : Nat) :
    step onward schema (.object entries) depth =
      walkRow onward depth fields (Child.ofField entries)
        (fun declared accepted output => Entries.insert declared.name accepted output)
        .object [] := by
  have hfields : step onward schema (.object entries) depth =
      Traversal.fields onward fields (.object entries) depth := by
    cases schema with
    | struct declaration | object _ declaration =>
      cases h
      rfl
    | _ => cases h
  rw [hfields, Traversal.fields]
  symm
  refine walkRow_of_body fun declared b => ?_
  rewrite [gather, field_eq]
  refine bind_congr fun outcome => ?_
  rcases outcome with failure | _ | accepted <;> rfl

/-- The walk of a container, where each child is walked as it is checked. -/
theorem Stands.walkRow (h : t.Stands rules here) {value : Json} {children : List Child}
    {assemble : List (Option Json) → Json} (hc : Container schema value children assemble)
    {row : List ξ} {asChild : ξ → Child} {put : ξ → Json → β → β} {whole : β → Json} {b : β}
    (hrow : row.map asChild = children)
    (hwhole : ∀ outputs : List (Option Json), outputs.length = row.length →
      whole (collect put row outputs b) = assemble outputs)
    (hchild : ¬rules.maxDepth ≤ here.path.length → ∀ x ∈ row, Balanced targets t
      (walkChild onward here.path.length (asChild x)) (checkChild rules (asChild x) here)) :
    Balanced targets t (walkRow onward here.path.length row asChild put whole b)
      (check rules schema value here) := by
  intro session hs
  rw [Traversal.walkRow, bind_apply (h.enterContainer session hs).1]
  by_cases hd : rules.maxDepth ≤ here.path.length
  · rw [check_deep hc hd, if_pos hd]
    exact ⟨rfl, hs⟩
  · rw [check_container hc hd, if_neg hd]
    obtain ⟨hrun, hlater⟩ := h.loop (hchild hd) b whole session hs
    rw [gathered, hrow] at hrun hlater
    rcases hcheck : checkChildren rules children here session with ⟨report | outputs, later⟩ <;>
      rw [hcheck] at hrun hlater
    · exact ⟨hrun, hlater⟩
    · dsimp only
      rw [← hwhole outputs (by rw [length_of_checkChildren hcheck, ← hrow, List.length_map])]
      exact ⟨hrun, hlater⟩

/-- The walk of a value that its schema takes apart. -/
theorem Stands.stepContainer (h : t.Stands rules here) {value : Json} {children : List Child}
    {assemble : List (Option Json) → Json} (hc : Container schema value children assemble)
    (hkeys : value.DistinctKeys)
    (hfields : ∀ fields, schema.fields? = some fields → (fields.map Field.name).Nodup)
    (hchild : ¬rules.maxDepth ≤ here.path.length → ∀ child ∈ children, Balanced targets t
      (walkChild onward here.path.length child) (checkChild rules child here)) :
    Balanced targets t (step onward schema value here.path.length) (check rules schema value here) := by
  cases hc with
  | @items element items he =>
    rw [step_items he]
    have hrow := (Child.ofItems_eq element items 0).symm
    refine h.walkRow (.items he) hrow (fun outputs hlength => ?_) fun hd item hm =>
      hchild hd _ (hrow ▸ List.mem_map_of_mem hm)
    rw [toList_collect_push hlength, Array.toList_empty, List.nil_append]
  | @entries entry entries he =>
    rw [step_entries he]
    refine h.walkRow (.entries he) rfl (fun outputs _ => ?_) fun hd entry hm =>
      hchild hd _ (List.mem_map_of_mem hm)
    rw [collect_insert hkeys.keys outputs fun _ _ => List.not_mem_nil, List.nil_append]
  | @fields fields entries hf =>
    rw [step_fields hf]
    refine h.walkRow (.fields hf) rfl (fun outputs _ => ?_) fun hd field hm =>
      hchild hd _ (List.mem_map_of_mem hm)
    rw [collect_insert (hfields fields hf) outputs fun _ _ => List.not_mem_nil, List.nil_append]

end Containers

section Members

/-- One turn of the search for a member that accepts. -/
def tryMember (onward : Onward) (value : Json) (depth : Nat) (member : Schema × Nat)
    (b : Array Rejection × Option Json) :
    Traversing (ForInStep (Array Rejection × Option Json)) := do
  match ← onward member.1 value depth with
  | .ok output => return .done (b.1, some output)
  | .error failure =>
    onSession (Session.record (.memberRejected member.2 failure.head))
    return .yield (b.1.push failure.head, b.2)

/-- What the search for a member has found. -/
def found (b : Array Rejection × Option Json) : Except (List Rejection) Json :=
  match b.2 with
  | some output => .ok output
  | none => .error b.1.toList

/-- The end of a union, from what the search has found. -/
def concluded (members : List Schema) : Except (List Rejection) Json → Traversing Outcome
  | .ok output => pure (.ok output)
  | .error attempts => do
    let expected := (Schema.union members).render (← onSession get).store
    return .error (← fail (.noMemberMatched expected attempts))

/-- The search for a member that accepts, after some attempts. -/
def searched (rules : Rules) (index : Nat) (members : List Schema) (value : Json)
    (here : Position) (attempts : Array Rejection) :
    StateM Session (Except (List Rejection) Json) := fun session =>
  match checkMembers rules index members value here session with
  | (.ok output, later) => (.ok output, later)
  | (.error more, later) => (.error (attempts.toList ++ more), later)

/-- One turn of the merging of all members. -/
def takeMember (onward : Onward) (value : Json) (depth : Nat) (member : Schema × Nat)
    (b : Option Outcome × Option Json) :
    Traversing (ForInStep (Option Outcome × Option Json)) := do
  match ← onward member.1 value depth with
  | .error causes => return .done (some (.error (← fail (.memberFailed member.2 causes))), b.2)
  | .ok output =>
    match b.2 with
    | none => return .yield (none, some output)
    | some previous =>
      match ← merge previous output member.2 with
      | .ok together => return .yield (none, some together)
      | .error failure => return .done (some (.error failure), b.2)

/-- What the merging of all members comes to. -/
def united (value : Json) (b : Option Outcome × Option Json) : Outcome :=
  match b.1 with
  | some outcome => outcome
  | none => .ok (b.2.getD value)

variable {onward : Onward} {value : Json} {depth index : Nat} {member : Schema} {rest : List Schema}
  {session later : Session}

/-- The walk of a union, in the terms of the search for a member. -/
theorem step_union (members : List Schema) (value : Json) (depth : Nat) :
    step onward (.union members) value depth = (do
      let collectAll ← modifyGet fun traversal =>
        (traversal.collectAll, { traversal with collectAll := false })
      let result ← ForIn.forIn members.zipIdx (#[], none) (tryMember onward value depth) >>= fun b =>
        pure (found b)
      modify fun traversal => { traversal with collectAll }
      concluded members result) := by
  rw [step, union]
  refine bind_congr fun collectAll => ?_
  rw [bind_assoc]
  refine bind_congr fun b => ?_
  rw [pure_bind]
  refine bind_congr fun _ => ?_
  rcases b with ⟨attempts, _ | output⟩ <;> rfl

/-- The walk of an intersection, in the terms of the merging of all members. -/
theorem step_intersection (members : List Schema) (value : Json) (depth : Nat) :
    step onward (.intersection members) value depth =
      ForIn.forIn members.zipIdx (none, none) (takeMember onward value depth) >>= fun b =>
        pure (united value b) := by
  rw [step, intersect]
  refine bind_congr fun b => ?_
  rcases b with ⟨_ | outcome, merged⟩ <;> rfl

end Members

section Nodes

variable {onward : Onward} {value : Json} {depth : Nat}

/-- The rejection of the node ends its walk. -/
theorem Stands.reject (h : t.Stands rules here) (cause : Cause) :
    Balanced targets t (do return .error (← Traversal.fail cause) : Traversing Outcome)
      (pure (.error (here.reject cause))) :=
  (h.fail cause).bind fun report => .pure (Except.error report)

/-- A leaf is decided by the policy. -/
theorem Stands.stepLeaf (h : t.Stands rules here) (leaf : Leaf) :
    Balanced targets t (step onward (.leaf leaf) value depth) (check rules (.leaf leaf) value here) := by
  rw [check, checkLeaf, ← h.policy, step, Traversal.leaf]
  refine .get ?_
  cases t.policy.check leaf value with
  | ok output => exact (Balanced.record _).bind fun _ => .pure _
  | error cause =>
    exact (Balanced.record _).bind fun _ => h.reject cause

/-- A value of another shape than its schema expects is rejected. -/
theorem Stands.stepMismatch (h : t.Stands rules here) {schema : Schema} {expected : String}
    (hview : View.of schema value = .mismatch expected) :
    Balanced targets t (step onward schema value depth)
      (pure (.error (here.reject (.shapeMismatch expected value.kind)))) := by
  convert h.reject (.shapeMismatch expected value.kind) using 1
  cases schema with
  | list element =>
    cases value <;> cases hview <;> simp only [step, list]
  | struct | object =>
    cases value <;> cases hview <;> simp only [step, fields]
  | record entry =>
    cases value <;> cases hview <;> simp only [step, record]
  | json => cases value <;> cases hview
  | _ => cases hview

/-- A step down is taken back. -/
theorem Balanced.descend {segment : Segment} {schema : Schema}
    (hvisit : Balanced targets (t.down segment)
      (onward schema value (here.child segment).path.length)
      (check rules schema value (here.child segment))) :
    Balanced targets t (Traversal.descend onward segment schema value here.path.length)
      (check rules schema value (here.child segment)) := by
  intro session hs
  obtain ⟨hrun, hlater⟩ := hvisit session hs
  rw [Position.length_child] at hrun
  refine ⟨?_, hlater⟩
  rw [Traversal.descend]
  change (onward schema value (here.path.length + 1) >>= fun outcome => do
    modify fun traversal => { traversal with entered := t.entered }
    modify fun traversal => { traversal with path := traversal.path.pop }
    return outcome) (t.down segment) session = _
  rw [bind_apply hrun]
  change some ((_, { t with path := (t.path.push segment).pop }), _) = _
  rw [Array.pop_push]

/-- A reference that may be followed leads to the schema in its cell, and is left again. -/
theorem Stands.stepReference (h : t.Stands rules here) {r : Reference}
    (he : here.mayEnter r.cell)
    (hvisit : ∀ target, targets r.cell = some target →
      Balanced targets { t with entered := t.entered.push r } (onward target value depth)
        (check rules target value (here.enter r.cell))) :
    Balanced targets t (step onward (.reference r) value depth)
      (check rules (.reference r) value here) := by
  intro session hs
  obtain ⟨later, hfetch, htarget⟩ := Session.onStore_fetch? session r.cell
  rw [hs] at hfetch htarget
  rw [check_reference rules value here session he, hfetch, step, deferred]
  change ((if t.entered.size ≥ maxHops ∨ _ then _ else _ : Traversing Outcome) t session) = _ ∧ _
  rw [if_neg (by rwa [h.mayEnter_iff r, not_not])]
  have hrun : onSession (Session.onStore (Store.fetch? r.cell)) t session =
      some ((targets r.cell, t), later) := by
    rw [onSession, hfetch]
  rw [bind_apply hrun]
  cases ht : targets r.cell with
  | none => exact h.reject .unresolvedReference later htarget
  | some target =>
    obtain ⟨hrun, hlater⟩ := hvisit target ht later htarget
    refine ⟨?_, hlater⟩
    change (onward target value depth >>= fun outcome => do
      modify fun traversal => { traversal with entered := traversal.entered.pop }
      return outcome) { t with entered := t.entered.push r } later = _
    rw [bind_apply hrun]
    change some ((_, { t with entered := (t.entered.push r).pop }), _) = _
    rw [Array.pop_push]

/-- A reference that may not be followed is a cycle. -/
theorem Stands.stepBlocked (h : t.Stands rules here) {r : Reference}
    (he : ¬here.mayEnter r.cell) :
    Balanced targets t (step onward (.reference r) value depth)
      (check rules (.reference r) value here) := by
  rw [check, if_neg he, step, deferred]
  refine .get ?_
  rw [if_pos ((h.mayEnter_iff r).mpr he)]
  exact h.reject .cyclicReference

/-- A union puts the mode back after its search, and then gives what was found. -/
theorem Stands.stepUnion (h : t.Stands rules here) {members : List Schema}
    (hmembers : Balanced targets { t with collectAll := false }
      (ForIn.forIn members.zipIdx (#[], none) (tryMember onward value depth) >>= fun b => pure (found b))
      (searched rules.failFast 0 members value here #[])) :
    Balanced targets t (step onward (.union members) value depth)
      (check rules (.union members) value here) := by
  intro session hs
  obtain ⟨hrun, hlater⟩ := hmembers session hs
  rw [check_union, step_union]
  change ((ForIn.forIn members.zipIdx (#[], none) (tryMember onward value depth) >>= fun b =>
      pure (found b)) >>= fun result => do
    modify fun traversal => { traversal with collectAll := t.collectAll }
    concluded members result) { t with collectAll := false } session = _ ∧ _
  rw [bind_apply hrun]
  rw [searched] at hlater ⊢
  rcases hm : checkMembers rules.failFast 0 members value here session with
    ⟨attempts | output, later⟩ <;> rw [hm] at hlater
  · exact h.reject (.noMemberMatched ((Schema.union members).render later.store) attempts) later
      hlater
  · exact ⟨rfl, hlater⟩

/-- The first member that accepts ends the search, and the rejection of another is an attempt. -/
theorem balanced_moreMembers {index : Nat} {member : Schema}
    {rest : List Schema}
    (hmember : Balanced targets t (onward member value depth) (check rules member value here))
    (hrest : ∀ attempts, Balanced targets t
      (ForIn.forIn (rest.zipIdx (index + 1)) (attempts, none) (tryMember onward value depth) >>= fun b =>
        pure (found b))
      (searched rules (index + 1) rest value here attempts)) (attempts : Array Rejection) :
    Balanced targets t
      (ForIn.forIn ((member :: rest).zipIdx index) (attempts, none) (tryMember onward value depth) >>=
        fun b => pure (found b))
      (searched rules index (member :: rest) value here attempts) := by
  intro session hs
  obtain ⟨hrun, hlater⟩ := hmember session hs
  rw [List.zipIdx_cons, List.forIn_cons, bind_assoc, tryMember, bind_assoc, bind_apply hrun,
    searched, checkMembers_cons]
  rcases hc : check rules member value here session with ⟨report | output, later⟩ <;>
    rw [hc] at hlater
  · obtain ⟨hrun, hlast⟩ := hrest (attempts.push report.head)
      (Session.record (.memberRejected index report.head) later).2 hlater
    change (ForIn.forIn (rest.zipIdx (index + 1)) (attempts.push report.head, none)
      (tryMember onward value depth) >>= fun b => pure (found b)) t
        (Session.record (.memberRejected index report.head) later).2 = _ ∧ _
    rw [hrun]
    rw [searched] at hlast ⊢
    dsimp only
    rcases hm : checkMembers rules (index + 1) rest value here
        (Session.record (.memberRejected index report.head) later).2 with
      ⟨more | output, last⟩ <;> rw [hm] at hlast
    · dsimp only
      rw [Array.toList_push, List.append_assoc, List.singleton_append]
      exact ⟨rfl, hlast⟩
    · exact ⟨rfl, hlast⟩
  · exact ⟨rfl, hlater⟩

/-- A member that accepts has its output merged before the others follow. -/
theorem Stands.everyMore (h : t.Stands rules here) {index : Nat} {member : Schema}
    {rest : List Schema} {merged : Option Json}
    (hmember : Balanced targets t (onward member value depth) (check rules member value here))
    (hrest : ∀ output, Balanced targets t
      (ForIn.forIn (rest.zipIdx (index + 1)) (none, some output) (takeMember onward value depth) >>=
        fun b => pure (united value b))
      (checkEvery rules (index + 1) rest (some output) value here)) :
    Balanced targets t
      (ForIn.forIn ((member :: rest).zipIdx index) (none, merged) (takeMember onward value depth) >>=
        fun b => pure (united value b))
      (checkEvery rules index (member :: rest) merged value here) := by
  intro session hs
  obtain ⟨hrun, hlater⟩ := hmember session hs
  rw [List.zipIdx_cons, List.forIn_cons, bind_assoc, takeMember, bind_assoc, bind_apply hrun,
    checkEvery_cons]
  rcases hc : check rules member value here session with ⟨causes | output, later⟩ <;>
    rw [hc] at hlater
  · dsimp only
    rw [bind_assoc, bind_apply (h.fail (.memberFailed index causes) later hlater).1]
    exact ⟨rfl, hlater⟩
  · cases merged with
    | none => exact hrest output later hlater
    | some previous =>
      dsimp only
      rw [bind_assoc, bind_apply (h.merge index previous output later hlater).1, mergeInto]
      cases hm : mergeOutputs previous output with
      | ok together => exact hrest together later hlater
      | error way => exact ⟨rfl, hlater⟩

end Nodes

/-- Goes on at a node as the check of the node does, from every state that says where the check
stands. -/
def Tracks (targets : Targets) (onward : Onward) (rules : Rules) (schema : Schema) (value : Json)
    (here : Position) : Prop :=
  ∀ t : Traversal, t.Stands rules here →
    Balanced targets t (onward schema value here.path.length) (check rules schema value here)

/-- With enough budget below a node there is enough at the node. -/
theorem eventually_tracks {schema : Schema} {value : Json}
    (h : ∀ᶠ budget in atTop, Tracks targets (step (visit budget)) rules schema value here) :
    ∀ᶠ budget in atTop, Tracks targets (visit budget) rules schema value here := by
  rw [eventually_atTop] at h ⊢
  obtain ⟨enough, h⟩ := h
  refine ⟨enough + 1, fun budget hbudget => ?_⟩
  cases budget with
  | zero => exact absurd hbudget (Nat.not_succ_le_zero enough)
  | succ budget => exact h budget (Nat.le_of_succ_le_succ hbudget)

/-- Said of each function of a check: with enough budget, the walk that starts where the check
stands is balanced. -/
def balancing (targets : Targets) (root : Schema) : Walk where
  ofSchema rules schema value here := Schema.Reaches targets root schema → value.DistinctKeys →
    ∀ᶠ budget in atTop, Tracks targets (visit budget) rules schema value here
  ofChild rules child here := Schema.Reaches targets root child.schema →
    ∀ container, child.Within container →
    ∀ᶠ budget in atTop, ∀ t : Traversal, t.Stands rules here →
      Balanced targets t (walkChild (visit budget) here.path.length child)
        (checkChild rules child here)
  ofChildren rules children here := ∀ child ∈ children,
    Schema.Reaches targets root child.schema → ∀ container, child.Within container →
    ∀ᶠ budget in atTop, ∀ t : Traversal, t.Stands rules here →
      Balanced targets t (walkChild (visit budget) here.path.length child)
        (checkChild rules child here)
  ofMembers rules index members value here :=
    (∀ member ∈ members, Schema.Reaches targets root member) → value.DistinctKeys →
    ∀ᶠ budget in atTop, ∀ t : Traversal, t.Stands rules here → ∀ attempts : Array Rejection,
      Balanced targets t
        (ForIn.forIn (members.zipIdx index) (attempts, none)
          (tryMember (visit budget) value here.path.length) >>= fun b => pure (found b))
        (searched rules index members value here attempts)
  -- The budget has to do for whatever the earlier members gave.
  ofEvery rules index members _ value here :=
    (∀ member ∈ members, Schema.Reaches targets root member) → value.DistinctKeys →
    ∀ᶠ budget in atTop, ∀ t : Traversal, t.Stands rules here → ∀ merged : Option Json,
      Balanced targets t
        (ForIn.forIn (members.zipIdx index) (none, merged)
          (takeMember (visit budget) value here.path.length) >>= fun b => pure (united value b))
        (checkEvery rules index members merged value here)

theorem balancing_inductive {root : Schema} (hfields : root.DistinctFields targets) :
    (balancing targets root).Inductive where
  leaf rules leaf value here _ _ := eventually_tracks (.of_forall fun _ t h => h.stepLeaf leaf)
  null rules inner value here hnull _ _ := by
    refine eventually_tracks (.of_forall fun budget t h => ?_)
    rw [check, if_pos hnull, step, if_pos hnull]
    exact .pure _
  nullable rules inner value here hnull ih hr hd := by
    refine eventually_tracks ((ih (hr.part (List.mem_singleton_self _)) hd).mono
      fun budget hinner t h => ?_)
    rw [check, if_neg hnull, step, if_neg hnull]
    exact hinner t h
  union rules members value here ih hr hd :=
    eventually_tracks ((ih (fun member hm => hr.part hm) hd).mono fun budget hmembers t h =>
      h.stepUnion (hmembers _ h.failFast #[]))
  intersection rules members value here ih hr hd := by
    refine eventually_tracks ((ih (fun member hm => hr.part hm) hd).mono
      fun budget hmembers t h => ?_)
    rw [check, step_intersection]
    exact hmembers t h none
  followed rules r value here he ih hr hd := by
    cases ht : targets r.cell with
    | none =>
      refine eventually_tracks (.of_forall fun budget t h => h.stepReference he ?_)
      intro target htarget
      cases ht.symm.trans htarget
    | some target =>
      refine eventually_tracks ((ih target (hr.target ht) hd).mono
        fun budget htarget t h => h.stepReference he ?_)
      intro other hother
      cases ht.symm.trans hother
      exact htarget _ (h.enter r)
  blocked rules r value here he _ _ := eventually_tracks (.of_forall fun _ t h => h.stepBlocked he)
  plain rules schema value here hs hview _ _ := by
    refine eventually_tracks (.of_forall fun budget t h => ?_)
    rw [check_structural rules value here hs, hview]
    convert Balanced.pure (Except.ok value : Outcome) using 1
    cases schema with
    | any => rw [step]
    | json =>
      cases value with
      | array | object => cases hview
      | null | bool | number | string => simp only [step, json]
    | list | struct | object | record => cases value <;> cases hview
    | leaf | nullable | union | intersection | reference => cases hs
  mismatch rules schema value here expected hview _ _ := by
    refine eventually_tracks (.of_forall fun budget t h => ?_)
    have hs : schema.isStructural := View.isStructural_of_ne_plain (by rw [hview]; simp)
    rw [check_structural rules value here hs, hview]
    exact h.stepMismatch hview
  deep rules schema value here children assemble hc hdeep hr hd :=
    eventually_tracks (.of_forall fun _ t h =>
      h.stepContainer hc hd (fun fields hf => hfields _ _ hr hf) fun hn => absurd hdeep hn)
  container rules schema value here children assemble hc _ ih hr hd := by
    have hall := (eventually_all_finite children.finite_toSet).mpr fun child hm =>
      ih child hm (hr.child hc hm) value (hc.within hd hm)
    exact eventually_tracks (hall.mono fun budget hchild t h =>
      h.stepContainer hc hd (fun fields hf => hfields _ _ hr hf) fun _ child hm =>
        hchild child hm t h)
  present rules segment schema value here ih hr container hw := by
    refine (ih hr hw.2).mono fun budget hinner t h => ?_
    have hstep := (hinner _ (h.down segment)).descend
    rw [checkChild, walkChild]
    refine hstep.bind fun outcome => ?_
    cases outcome <;> exact .pure _
  absent rules name schema here _ _ _ := by
    refine .of_forall fun budget t h => ?_
    rw [checkChild, walkChild]
    refine (Balanced.onSession fun session => ?_).bind fun absent => ?_
    · obtain ⟨later, hrun, ht⟩ := schema.onStore_acceptsAbsent session
      rw [hrun]
      exact ht
    · cases absent with
      | false => exact (h.failAt (.key name) (.missingField name)).bind fun report => .pure _
      | true => exact .pure _
  noChildren rules here := List.forall_mem_nil _
  moreChildren rules child rest here hchild hrest := List.forall_mem_cons.mpr ⟨hchild, hrest⟩
  noMembers rules index value here _ _ := by
    refine .of_forall fun budget t h attempts session hs => ?_
    rw [searched, checkMembers_nil]
    dsimp only
    rw [List.append_nil]
    exact ⟨rfl, hs⟩
  moreMembers rules index member rest value here hmember hrest hr hd := by
    filter_upwards [hmember (hr member List.mem_cons_self) hd,
      hrest (fun other hm => hr other (List.mem_cons_of_mem _ hm)) hd] with budget hm hothers t h
    exact balanced_moreMembers (hm t h) (hothers t h)
  everyDone rules index merged value here _ _ := by
    refine .of_forall fun budget t h merged => ?_
    rw [checkEvery]
    exact .pure _
  everyMore rules index member rest merged value here hmember hrest hr hd := by
    filter_upwards [hmember (hr member List.mem_cons_self) hd,
      hrest .null (fun other hm => hr other (List.mem_cons_of_mem _ hm)) hd]
      with budget hm hothers t h merged
    exact h.everyMore (hm t h) fun output => hothers t h (some output)

/-- From wherever a check stands the walk ends if it has enough budget, with what the check
gives, and in the state that it started from. -/
theorem visit_tracks (rules : Rules) (here : Position) {root schema : Schema} {value : Json}
    (hfields : root.DistinctFields targets) (hr : Schema.Reaches targets root schema)
    (hd : value.DistinctKeys) :
    ∀ᶠ budget in atTop, Tracks targets (visit budget) rules schema value here :=
  (balancing_inductive hfields).holds rules schema value here hr hd

/-- At the start the stack is empty and no reference is entered. -/
theorem stands_start (rules : Rules) : (start rules).Stands rules .root where
  policy := rfl
  collectAll := rfl
  maxDepth := rfl
  path := rfl
  entered := rfl

/-- The traversal of a value ends, and gives what the check of the value gives whatever budget
it has beyond what it needs, if no object in the value has a key twice and none of the schemas
declares a field twice. -/
theorem run_start {schema : Schema} {value : Json} {session : Session} (rules : Rules)
    (hfields : schema.DistinctFields session.store.target?) (hd : value.DistinctKeys) :
    ∃ enough, ∀ budget ≥ enough, run budget (start rules) schema value session =
      some (check rules schema value .root session) := by
  obtain ⟨enough, htracks⟩ := eventually_atTop.mp
    (visit_tracks rules .root hfields .root hd)
  refine ⟨enough, fun budget hbudget => ?_⟩
  have hvisit := (htracks budget hbudget _ (stands_start rules) session rfl).1
  change visit budget schema value 0 (start rules) session = _ at hvisit
  simp only [run, bind, StateT.bind, hvisit, Option.bind_some]
  rfl

end Traversal

end Conformance
