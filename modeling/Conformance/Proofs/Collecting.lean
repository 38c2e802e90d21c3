import Conformance.Proofs.Lowering

/-!
# A container reports what its children report

When all rejections are reported, a container is put together from what its children give
on their own: each is validated as a root with one level less, or asked whether it may be
absent. If all give an output, the container has them; and in any case it reports, child by
child in their order, what each reports, one level further down. So nothing that one child
does shows in what is reported of another.
-/

namespace Conformance

/-- Where a child lies in its container. -/
def Child.segment : Child → Segment
  | .present segment _ _ => segment
  | .absent name _ => .key name

/-- The validator of a schema that reports all rejections. -/
def Validator.collecting (policy : Policy) (limit : Nat) (schema : Schema) : Validator :=
  { policy, mode := .collectAll, maxDepth := limit, schema }

/-- What a child gives on its own: a present one is validated as a root, and an absent one
may be absent or is missing. -/
def Child.alone (policy : Policy) (limit : Nat) (session : Session) :
    Child → Except Report (Option Json)
  | .present _ schema value =>
    ((Validator.collecting policy limit schema).validate value session).1.map some
  | .absent name schema =>
    if (schema.acceptsAbsent session.store).1 then .ok none
    else .error (.singleton ⟨[], .missingField name⟩)

/-- The rejections that are reported, of which an output has none. -/
def rejectionsOf {α : Type} : Except Report α → List Rejection
  | .ok _ => []
  | .error report => report.toList

/-- What is made of the output changes nothing in what is reported. -/
theorem rejectionsOf_map {α β : Type} (f : α → β) (result : Except Report α) :
    rejectionsOf (result.map f) = rejectionsOf result := by
  cases result <;> rfl

section Rows

variable (policy : Policy) (limit : Nat) {session : Session} {root : Schema}

/-- As the child of a container a child ends as on its own, one level further down. -/
theorem checkChild_alone (hresolved : root.Resolved session.store) {child : Child}
    (hr : Schema.Reaches session.store.target? root child.schema) {t : Session}
    (ht : t.store = session.store) :
    Beside (BothAt session.store) (BothAt session.store)
      (LoweredReport policy child.segment limit)
      (child.alone policy limit session, session)
      (checkChild ⟨policy, .collectAll, limit + 1⟩ child .root t) := by
  cases child with
  | present segment schema value =>
    have hvalue : Beside (BothAt session.store) (BothAt session.store)
        (LoweredReport policy segment limit)
        (check ⟨policy, .collectAll, limit⟩ schema value .root session)
        (check ⟨policy, .collectAll, limit + 1⟩ schema value (Position.root.child segment) t) :=
      check_lowered hresolved ⟨policy, .collectAll, limit⟩ hr value .root ⟨rfl, ht⟩
    have halone : (Child.present segment schema value).alone policy limit session =
        (check ⟨policy, .collectAll, limit⟩ schema value .root session).1.map some := by
      rw [Child.alone, Validator.validate_fst]
      rfl
    rw [halone, checkChild_present]
    generalize check ⟨policy, .collectAll, limit⟩ schema value .root session = first at hvalue ⊢
    generalize check ⟨policy, .collectAll, limit + 1⟩ schema value (Position.root.child segment) t =
      second at hvalue ⊢
    cases hvalue with
    | ok h => exact .ok ⟨rfl, h.2⟩
    | error he h => exact .error he ⟨rfl, h.2⟩
  | absent name schema =>
    have hrun := BothAt.absence hresolved hr ht
    rw [Child.schema] at hrun
    rw [Child.alone, Schema.acceptsAbsent_fst, checkChild_absent, hrun]
    cases schema.absentWithin session.store.target? [] with
    | true => exact .ok ⟨rfl, ht⟩
    | false => exact .error (.reject (.alike rfl)) ⟨rfl, ht⟩

/-- A row of children gives the outputs that they give on their own, if all do, and reports
what they report on their own, one after the other. -/
theorem checkChildren_alone (hresolved : root.Resolved session.store) {children : List Child}
    (hr : ∀ child ∈ children, Schema.Reaches session.store.target? root child.schema)
    {t : Session} (ht : t.store = session.store) :
    (∀ outputs, (checkChildren ⟨policy, .collectAll, limit + 1⟩ children .root t).1 = .ok outputs ↔
      List.Forall₂ (fun child output => child.alone policy limit session = .ok output)
        children outputs) ∧
    ∃ parts, List.Forall₂ (fun child part => List.Forall₂ (Lowered policy child.segment limit)
        (rejectionsOf (child.alone policy limit session)) part) children parts ∧
      rejectionsOf (checkChildren ⟨policy, .collectAll, limit + 1⟩ children .root t).1 =
        parts.flatten := by
  induction children generalizing t with
  | nil =>
    rw [checkChildren_nil]
    refine ⟨fun outputs => ?_, [], .nil, rfl⟩
    constructor
    · intro h
      cases h
      exact .nil
    · intro h
      cases h
      rfl
  | cons child rest ih =>
    obtain ⟨hfirst, hrest⟩ := List.forall_mem_cons.mp hr
    have hchild := checkChild_alone policy limit hresolved hfirst ht
    rw [checkChildren_cons]
    generalize checkChild ⟨policy, .collectAll, limit + 1⟩ child .root t = run at hchild ⊢
    generalize halone : child.alone policy limit session = alone at hchild
    cases hchild with
    | @ok output _ last hboth =>
      obtain ⟨hok, parts, hparts, hflat⟩ := ih hrest hboth.2
      dsimp only
      generalize checkChildren ⟨policy, .collectAll, limit + 1⟩ rest .root last = others
        at hok hflat ⊢
      obtain ⟨result, final⟩ := others
      constructor
      · intro outputs
        rw [List.forall₂_cons_left_iff]
        constructor
        · intro h
          cases result with
          | error report => cases h
          | ok found =>
            cases h
            exact ⟨output, found, halone, (hok found).mp rfl, rfl⟩
        · rintro ⟨first, tail, hfirst, htail, rfl⟩
          cases halone.symm.trans hfirst
          cases (hok tail).mpr htail
          rfl
      · refine ⟨[] :: parts, .cons ?_ hparts, ?_⟩
        · rw [halone]
          exact .nil
        · rw [List.flatten_cons, List.nil_append, ← hflat]
          cases result <;> rfl
    | @error report other _ last h hboth =>
      obtain ⟨hok, parts, hparts, hflat⟩ := ih hrest hboth.2
      dsimp only
      rw [if_pos rfl]
      generalize checkChildren ⟨policy, .collectAll, limit + 1⟩ rest .root last = others
        at hok hflat ⊢
      obtain ⟨result, final⟩ := others
      constructor
      · intro outputs
        rw [List.forall₂_cons_left_iff]
        constructor
        · intro hrun
          cases result <;> cases hrun
        · rintro ⟨first, tail, hfirst, _, _⟩
          cases halone.symm.trans hfirst
      · refine ⟨other.toList :: parts, .cons ?_ hparts, ?_⟩
        · rw [halone]
          exact h
        · rw [List.flatten_cons, ← hflat]
          cases result with
          | ok found => exact (List.append_nil _).symm
          | error more => rfl

end Rows

/-- The parts of which a report is made, under a shallow policy: what each child reports on
its own, lowered. -/
theorem parts_eq_map {policy : Policy} (hpolicy : policy.Shallow) {limit : Nat}
    {session : Session} {children : List Child} {parts : List (List Rejection)}
    (h : List.Forall₂ (fun child part => List.Forall₂ (Lowered policy child.segment limit)
      (rejectionsOf (child.alone policy limit session)) part) children parts) :
    parts = children.map fun child =>
      (rejectionsOf (child.alone policy limit session)).map (Rejection.lower child.segment) := by
  have hpart : ∀ {segment : Segment} {rejections part : List Rejection},
      List.Forall₂ (Lowered policy segment limit) rejections part →
        part = rejections.map (Rejection.lower segment) := by
    intro segment rejections part hlowered
    induction hlowered with
    | nil => rfl
    | cons hfirst _ ih => rw [ih, hfirst.eq_lower hpolicy, List.map_cons]
  induction h with
  | nil => rfl
  | cons hfirst _ ih => rw [ih, hpart hfirst, List.map_cons]

/-- With nothing left to resolve, a container that is validated for all rejections is
accepted exactly if each of its children gives an output on its own, with one level less,
and then it is put together from these. And it reports, in the order of the children, what
each reports on its own, one level further down; under a shallow policy that is just the
segment in front of every path and one more in every limit. -/
theorem collectAll_compositional (policy : Policy) (limit : Nat) {schema : Schema} {value : Json}
    {children : List Child} {assemble : List (Option Json) → Json}
    (hc : Container schema value children assemble) (session : Session)
    (hresolved : schema.Resolved session.store) :
    (∀ output, ((Validator.collecting policy (limit + 1) schema).validate value session).1 =
        .ok output ↔
      ∃ outputs, List.Forall₂ (fun child output => child.alone policy limit session = .ok output)
        children outputs ∧ output = assemble outputs) ∧
    (∃ parts, List.Forall₂ (fun child part => List.Forall₂ (Lowered policy child.segment limit)
        (rejectionsOf (child.alone policy limit session)) part) children parts ∧
      rejectionsOf ((Validator.collecting policy (limit + 1) schema).validate value session).1 =
        parts.flatten) ∧
    (policy.Shallow →
      rejectionsOf ((Validator.collecting policy (limit + 1) schema).validate value session).1 =
        children.flatMap fun child =>
          (rejectionsOf (child.alone policy limit session)).map
            (Rejection.lower child.segment)) := by
  have hreaches : ∀ child ∈ children,
      Schema.Reaches session.store.target? schema child.schema :=
    fun child hm => Schema.Reaches.root.child hc hm
  have habove : ¬limit + 1 ≤ Position.root.path.length := Nat.not_succ_le_zero limit
  have hcontainer : ((Validator.collecting policy (limit + 1) schema).validate value session).1 =
      (checkChildren ⟨policy, .collectAll, limit + 1⟩ children .root session).1.map assemble := by
    rw [Validator.validate_fst]
    change (check ⟨policy, .collectAll, limit + 1⟩ schema value .root session).1 = _
    rw [check_container hc habove]
    rcases checkChildren ⟨policy, .collectAll, limit + 1⟩ children .root session with
      ⟨_ | _, later⟩ <;> rfl
  obtain ⟨hok, parts, hparts, hflat⟩ :=
    checkChildren_alone policy limit hresolved hreaches rfl
  rw [hcontainer, rejectionsOf_map, hflat]
  refine ⟨fun output => ?_, ⟨parts, hparts, rfl⟩, fun hpolicy => ?_⟩
  · generalize (checkChildren ⟨policy, .collectAll, limit + 1⟩ children .root session).1 = result
      at hok
    constructor
    · intro h
      cases result with
      | error report => cases h
      | ok outputs =>
        cases h
        exact ⟨outputs, (hok outputs).mp rfl, rfl⟩
    · rintro ⟨outputs, hrow, rfl⟩
      rw [(hok outputs).mpr hrow]
      rfl
  · rw [parts_eq_map hpolicy hparts, List.flatMap_def]

/-- A named sheet of rows, with a note, which is what the first cell leads to. -/
def sheet : Schema :=
  .struct [⟨"rows", .list (.list (.leaf .number)), none, false⟩,
    ⟨"name", .leaf .string, none, false⟩, ⟨"note", .reference ⟨0, .owner⟩, none, false⟩]

/-- A session in which a note is a text or null. -/
def sheetSession : Session :=
  ⟨Store.empty.setCell 0 (.filled (.nullable (.leaf .string))), #[]⟩

/-- The rows report what is wrong with them, a row that lies too deep and a text that is no
row; then the name is missing, and the note need not be there. -/
theorem sheet_collects :
    rejectionsOf ((Validator.collecting .strict 2 sheet).validate
        (.object [("rows", .array [.array [.number (.int 1 rfl)], .string "x"])])
        sheetSession).1 =
      [⟨[.key "rows", .index 0], .depthExceeded 2⟩,
        ⟨[.key "rows", .index 1], .shapeMismatch "list" "string"⟩,
        ⟨[.key "name"], .missingField "name"⟩] := by
  have hresolved : sheet.Resolved sheetSession.store := by
    intro r hr
    have hmem : Schema.reference r ∈ [sheet, .list (.list (.leaf .number)), .leaf .string,
        .reference ⟨0, .owner⟩, .list (.leaf .number), .leaf .number,
        .nullable (.leaf .string)] := by
      refine hr.mem_of_closed (P := (· ∈ _)) (by simp) ?_ ?_
      · intro whole hw part hp
        simp only [List.mem_cons, List.not_mem_nil, or_false] at hw
        rcases hw with rfl | rfl | rfl | rfl | rfl | rfl | rfl <;>
          simp only [sheet, Schema.parts, List.map_cons, List.map_nil, List.mem_cons,
            List.not_mem_nil, or_false] at hp
        · rcases hp with rfl | rfl | rfl <;> simp
        · rcases hp with rfl; simp
        · rcases hp with rfl; simp
        · rcases hp with rfl; simp
      · intro r hr target ht
        simp [sheet] at hr
        rcases hr with rfl
        cases ht
        simp
    simp [sheet] at hmem
    rcases hmem with rfl
    rfl
  have hcontainer : Container sheet
      (.object [("rows", .array [.array [.number (.int 1 rfl)], .string "x"])])
      [.present (.key "rows") (.list (.list (.leaf .number)))
          (.array [.array [.number (.int 1 rfl)], .string "x"]),
        .absent "name" (.leaf .string), .absent "note" (.reference ⟨0, .owner⟩)]
      (fun outputs => .object (nameOutputs ["rows", "name", "note"] outputs)) := by
    have hfields : sheet.fields? = some [⟨"rows", .list (.list (.leaf .number)), none, false⟩,
      ⟨"name", .leaf .string, none, false⟩, ⟨"note", .reference ⟨0, .owner⟩, none, false⟩] := rfl
    exact .fields hfields
  have hrun : ((Validator.collecting .strict 1 (.list (.list (.leaf .number)))).validate
      (.array [.array [.number (.int 1 rfl)], .string "x"]) sheetSession).1 =
      .error ⟨⟨[.index 0], .depthExceeded 1⟩, [⟨[.index 1], .shapeMismatch "list" "string"⟩]⟩ := by
    have htext (rules : Rules) (here : Position) (session : Session) :
        check rules (.list (.leaf .number)) (.string "x") here session =
          (.error (here.reject (.shapeMismatch "list" "string")), session) :=
      check_mismatch rules (.string "x") here session rfl
    rw [Validator.validate_fst, Validator.collecting]
    simp [check_list, checkChildren_cons, checkChildren_nil, checkChild_present, Child.ofItems,
      htext]
    rfl
  have hrows : (Child.present (.key "rows") (.list (.list (.leaf .number)))
      (.array [.array [.number (.int 1 rfl)], .string "x"])).alone .strict 1 sheetSession =
      .error ⟨⟨[.index 0], .depthExceeded 1⟩, [⟨[.index 1], .shapeMismatch "list" "string"⟩]⟩ := by
    rw [Child.alone, hrun]
    rfl
  have hname : (Child.absent "name" (.leaf .string)).alone .strict 1 sheetSession =
      .error (.singleton ⟨[], .missingField "name"⟩) := by
    rw [Child.alone, Schema.acceptsAbsent_fst]
    cbv
  have hnote : (Child.absent "note" (.reference ⟨0, .owner⟩)).alone .strict 1 sheetSession =
      .ok none := by
    rw [Child.alone, Schema.acceptsAbsent_fst]
    cbv
  obtain ⟨_, _, hshallow⟩ := collectAll_compositional .strict 1 hcontainer sheetSession hresolved
  rw [hshallow PolicyKind.strict.policy_shallow]
  simp only [List.flatMap_cons, List.flatMap_nil, hrows, hname, hnote]
  rfl

end Conformance
