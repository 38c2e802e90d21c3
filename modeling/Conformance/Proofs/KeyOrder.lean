import Conformance.Proofs.Reordering

/-!
# A check does not depend on the order of keys

Values that are equal up to the order of keys go through a check in different ways: the
entries of a record are checked in the order of the value, merged objects have their keys in
the order of the outputs, and a member of a union may be reached after other rejections. At
every place either both are accepted, with outputs that are equal up to the order of keys
again, or both are rejected.
-/

namespace Conformance

namespace Grounds

variable {grounds : Grounds} {depth : Nat} {entered : List CellId}

/-- Whether values that are equal up to the order of keys are accepted alike by a schema:
with outputs that are equal up to the order of keys, or not at all. -/
def Alike (grounds : Grounds) (schema : Schema) (depth : Nat) (entered : List CellId)
    (value other : Json) : Prop :=
  Option.Rel Json.Reordered (grounds.accept schema value depth entered)
    (grounds.accept schema other depth entered)

/-- Children that ask the same have outputs alike. -/
theorem acceptChildren_reordered {children others : List Child}
    (h : List.Forall₂ Child.Reordered children others)
    (ih : ∀ segment schema value, .present segment schema value ∈ children →
      ∀ other, value.Reordered other → grounds.Alike schema (depth + 1) [] value other) :
    Option.Rel (List.Forall₂ (Option.Rel Json.Reordered))
      (grounds.acceptChildren children depth) (grounds.acceptChildren others depth) := by
  induction h with
  | nil =>
    rw [acceptChildren]
    exact .some .nil
  | @cons child other rest more hchild _ ihrest =>
    have hrest := ihrest fun segment schema value hm =>
      ih segment schema value (List.mem_cons_of_mem _ hm)
    have hfirst : Option.Rel (Option.Rel Json.Reordered) (grounds.acceptChild child depth)
        (grounds.acceptChild other depth) := by
      cases hchild with
      | @present segment schema value other hv =>
        have halike := ih segment schema value List.mem_cons_self other hv
        rw [Alike] at halike
        rw [acceptChild, acceptChild]
        generalize grounds.accept schema value (depth + 1) [] = x at halike
        generalize grounds.accept schema other (depth + 1) [] = y at halike
        cases halike with
        | none => exact .none
        | some hr => exact .some (.some hr)
      | absent name schema =>
        rw [acceptChild]
        split
        · exact .some .none
        · exact .none
    rw [acceptChildren, acceptChildren]
    generalize grounds.acceptChild child depth = x at hfirst
    generalize grounds.acceptChild other depth = y at hfirst
    generalize grounds.acceptChildren rest depth = xs at hrest
    generalize grounds.acceptChildren more depth = ys at hrest
    cases hfirst with
    | none => exact .none
    | some hx =>
      cases hrest with
      | none => exact .none
      | some hxs => exact .some (.cons hx hxs)

/-- The first entry of a record has an output, and so have the others. -/
theorem acceptChildren_ofEntries_cons (entry : Schema) (key : String) (value : Json)
    (rest : List (String × Json)) :
    grounds.acceptChildren (Child.ofEntries entry ((key, value) :: rest)) depth =
      (grounds.accept entry value (depth + 1) []).bind fun output =>
        (grounds.acceptChildren (Child.ofEntries entry rest) depth).map (some output :: ·) := by
  change grounds.acceptChildren
    (.present (.key key) entry value :: Child.ofEntries entry rest) depth = _
  rw [acceptChildren, acceptChild]
  cases grounds.accept entry value (depth + 1) [] with
  | none => rfl
  | some output => cases grounds.acceptChildren (Child.ofEntries entry rest) depth <;> rfl

/-- The named outputs of entries in another order are the named outputs in another order. -/
theorem acceptChildren_perm (grounds : Grounds) (depth : Nat) (entry : Schema)
    {entries ordered : List (String × Json)} (h : entries.Perm ordered) :
    Option.Rel (fun outputs others =>
        (nameOutputs (entries.map Prod.fst) outputs).Perm
          (nameOutputs (ordered.map Prod.fst) others))
      (grounds.acceptChildren (Child.ofEntries entry entries) depth)
      (grounds.acceptChildren (Child.ofEntries entry ordered) depth) := by
  induction h with
  | nil =>
    change Option.Rel _ (grounds.acceptChildren [] depth) (grounds.acceptChildren [] depth)
    rw [acceptChildren]
    exact .some (.refl _)
  | @cons e rest more _ ih =>
    obtain ⟨key, value⟩ := e
    rw [acceptChildren_ofEntries_cons, acceptChildren_ofEntries_cons]
    cases grounds.accept entry value (depth + 1) [] with
    | none => exact .none
    | some output =>
      generalize grounds.acceptChildren (Child.ofEntries entry rest) depth = xs at ih
      generalize grounds.acceptChildren (Child.ofEntries entry more) depth = ys at ih
      cases ih with
      | none => exact .none
      | some hxs => exact .some (hxs.cons (key, output))
  | swap e f rest =>
    obtain ⟨key, value⟩ := e
    obtain ⟨key', value'⟩ := f
    simp only [acceptChildren_ofEntries_cons]
    cases grounds.accept entry value (depth + 1) [] with
    | none => cases grounds.accept entry value' (depth + 1) [] <;> exact .none
    | some output =>
      cases grounds.accept entry value' (depth + 1) [] with
      | none => exact .none
      | some output' =>
        cases grounds.acceptChildren (Child.ofEntries entry rest) depth with
        | none => exact .none
        | some outputs => exact .some (.swap (key, output) (key', output') _)
  | @trans entries middle ordered _ _ ih ih' =>
    generalize grounds.acceptChildren (Child.ofEntries entry entries) depth = xs at ih
    generalize grounds.acceptChildren (Child.ofEntries entry middle) depth = ys at ih ih'
    generalize grounds.acceptChildren (Child.ofEntries entry ordered) depth = zs at ih'
    cases ih with
    | none =>
      cases ih'
      exact .none
    | some h =>
      cases ih' with
      | some h' => exact .some (h.trans h')

/-- A container is accepted alike if what it is put together from is. -/
theorem Alike.container {schema : Schema} {value other : Json} {children others : List Child}
    {assemble assemble' : List (Option Json) → Json}
    (hc : Container schema value children assemble) (hc' : Container schema other others assemble')
    (h : Option.Rel (fun outputs outputs' => (assemble outputs).Reordered (assemble' outputs'))
      (grounds.acceptChildren children depth) (grounds.acceptChildren others depth)) :
    grounds.Alike schema depth entered value other := by
  rw [Alike, accept_container grounds depth entered hc, accept_container grounds depth entered hc']
  split
  · exact .none
  · generalize grounds.acceptChildren children depth = x at h
    generalize grounds.acceptChildren others depth = y at h
    cases h with
    | none => exact .none
    | some hr => exact .some hr

/-- Lists are accepted alike if their items are. -/
theorem Alike.items {schema element : Schema} {items others : List Json}
    (he : schema.itemSchema? = some element) (h : List.Forall₂ Json.Reordered items others)
    (ih : ∀ segment part item, .present segment part item ∈ Child.ofItems element 0 items →
      ∀ other, item.Reordered other → grounds.Alike part (depth + 1) [] item other) :
    grounds.Alike schema depth entered (.array items) (.array others) := by
  refine .container (.items he) (.items he) ?_
  have hrow := acceptChildren_reordered (Child.ofItems_reordered element 0 h) ih
  generalize grounds.acceptChildren (Child.ofItems element 0 items) depth = x at hrow
  generalize grounds.acceptChildren (Child.ofItems element 0 others) depth = y at hrow
  cases hrow with
  | none => exact .none
  | some hr => exact .some (.array (List.rel_filterMap (fun _ _ ho => ho) hr))

/-- Records are accepted alike if their entries are, in whichever order. -/
theorem Alike.entries {schema entry : Schema} {entries others : List (String × Json)}
    (he : schema.entrySchema? = some entry)
    (h : (Json.object entries).Reordered (.object others))
    (ih : ∀ segment part item, .present segment part item ∈ Child.ofEntries entry entries →
      ∀ other, item.Reordered other → grounds.Alike part (depth + 1) [] item other) :
    grounds.Alike schema depth entered (.object entries) (.object others) := by
  obtain ⟨ordered, hperm, hpairs⟩ := Json.reordered_object.mp h
  refine .container (.entries he) (.entries he) ?_
  have hfirst := acceptChildren_perm grounds depth entry hperm
  have hrow := acceptChildren_reordered (Child.ofEntries_reordered entry hpairs)
    fun segment part item hm => ih segment part item ((hperm.map _).mem_iff.mpr hm)
  have hkeys := (forall₂_entryReordered.mp hpairs).1
  generalize grounds.acceptChildren (Child.ofEntries entry entries) depth = x at hfirst
  generalize grounds.acceptChildren (Child.ofEntries entry ordered) depth = y at hfirst hrow
  generalize grounds.acceptChildren (Child.ofEntries entry others) depth = z at hrow
  cases hfirst with
  | none =>
    cases hrow
    exact .none
  | some hp =>
    cases hrow with
    | some hr =>
      exact .some (Json.reordered_object.mpr ⟨_, hp, hkeys ▸ nameOutputs_reordered _ hr⟩)

/-- Objects are accepted alike if what they have for the declared fields is. -/
theorem Alike.fields {schema : Schema} {fields : List (Field Schema)}
    {entries others : List (String × Json)} (hf : schema.fields? = some fields)
    (hkeys : (entries.map Prod.fst).Nodup)
    (h : (Json.object entries).Reordered (.object others))
    (ih : ∀ segment part item,
      .present segment part item ∈ fields.map (Child.ofField entries) →
      ∀ other, item.Reordered other → grounds.Alike part (depth + 1) [] item other) :
    grounds.Alike schema depth entered (.object entries) (.object others) := by
  refine .container (.fields hf) (.fields hf) ?_
  have hchildren : List.Forall₂ Child.Reordered (fields.map (Child.ofField entries))
      (fields.map (Child.ofField others)) := by
    rw [List.forall₂_map_left_iff, List.forall₂_map_right_iff, List.forall₂_same]
    exact fun field _ => Child.ofField_reordered hkeys h field
  have hrow := acceptChildren_reordered hchildren ih
  generalize grounds.acceptChildren (fields.map (Child.ofField entries)) depth = x at hrow
  generalize grounds.acceptChildren (fields.map (Child.ofField others)) depth = y at hrow
  cases hrow with
  | none => exact .none
  | some hr =>
    exact .some (Json.reordered_object.mpr ⟨_, .refl _, nameOutputs_reordered _ hr⟩)

/-- The first member that accepts is the same for values that the members accept alike. -/
theorem acceptFirst_reordered {members : List Schema} {value other : Json}
    (ih : ∀ member ∈ members, grounds.Alike member depth entered value other) :
    Option.Rel Json.Reordered (grounds.acceptFirst members value depth entered)
      (grounds.acceptFirst members other depth entered) := by
  induction members with
  | nil =>
    rw [acceptFirst, acceptFirst]
    exact .none
  | cons member rest ihrest =>
    obtain ⟨hmember, hrest⟩ := List.forall_mem_cons.mp ih
    rw [Alike] at hmember
    rw [acceptFirst, acceptFirst]
    generalize grounds.accept member value depth entered = x at hmember
    generalize grounds.accept member other depth entered = y at hmember
    cases hmember with
    | none => exact ihrest hrest
    | some hr => exact .some hr

/-- What members accept alike is merged alike. -/
theorem acceptEvery_reordered {members : List Schema} {merged merged' : Option Json}
    {value other : Json} (hvalue : value.Reordered other)
    (hmerged : ∀ a, merged = some a → a.DistinctKeys)
    (hrel : Option.Rel Json.Reordered merged merged')
    (hkeys : ∀ member ∈ members, ∀ output,
      grounds.accept member value depth entered = some output → output.DistinctKeys)
    (ih : ∀ member ∈ members, grounds.Alike member depth entered value other) :
    Option.Rel Json.Reordered (grounds.acceptEvery members merged value depth entered)
      (grounds.acceptEvery members merged' other depth entered) := by
  induction members generalizing merged merged' with
  | nil =>
    rw [acceptEvery, acceptEvery]
    cases hrel with
    | none => exact .some hvalue
    | some ha => exact .some ha
  | cons member rest ihrest =>
    obtain ⟨hmember, hrest⟩ := List.forall_mem_cons.mp ih
    obtain ⟨hfirst, hothers⟩ := List.forall_mem_cons.mp hkeys
    rw [Alike] at hmember
    rw [acceptEvery, acceptEvery]
    generalize grounds.accept member value depth entered = x at hmember hfirst
    generalize grounds.accept member other depth entered = y at hmember
    cases hmember with
    | none => exact .none
    | @some output output' hr =>
      have hboth := mergeInto_reordered hmerged (hfirst output rfl) hrel hr
      dsimp only
      cases hm : mergeInto merged output with
      | error way =>
        rw [hm] at hboth
        cases hm' : mergeInto merged' output' with
        | error way' => exact .none
        | ok both' =>
          rw [hm'] at hboth
          cases hboth
      | ok both =>
        rw [hm] at hboth
        cases hm' : mergeInto merged' output' with
        | error way' =>
          rw [hm'] at hboth
          cases hboth
        | ok both' =>
          rw [hm'] at hboth
          refine ihrest (fun a ha => ?_) hboth hothers hrest
          cases ha
          exact mergeInto_distinctKeys hmerged (hfirst output rfl) hm

/-- A value is accepted like itself if the output has distinct keys. -/
theorem Alike.refl {schema : Schema} {value : Json}
    (h : ∀ output, grounds.accept schema value depth entered = some output →
      output.DistinctKeys) : grounds.Alike schema depth entered value value := by
  rw [Alike]
  cases ha : grounds.accept schema value depth entered with
  | none => exact .none
  | some output => exact .some (.refl (h output ha))

/-- A flat policy accepts neither of two values that are no scalars. -/
theorem Alike.refused {leaf : Leaf} {value other : Json} (hflat : grounds.policy.Flat)
    (hvalue : ¬value.isScalar) (hother : ¬other.isScalar) :
    grounds.Alike (.leaf leaf) depth entered value other := by
  have hrefused : ∀ u : Json, ¬u.isScalar → grounds.accept (.leaf leaf) u depth entered = none := by
    intro u hu
    rw [accept]
    cases hc : grounds.policy.check leaf u with
    | error => rfl
    | ok output => exact absurd (hflat leaf u output hc).1 hu
  rw [Alike, hrefused value hvalue, hrefused other hother]
  exact .none

/-- A structural schema accepts lists alike if their items are accepted alike. -/
theorem Alike.of_array {schema : Schema} {items others : List Json} (hs : schema.isStructural)
    (h : List.Forall₂ Json.Reordered items others)
    (ih : ∀ element, schema.itemSchema? = some element → ∀ segment part item,
      .present segment part item ∈ Child.ofItems element 0 items →
      ∀ other, item.Reordered other → grounds.Alike part (depth + 1) [] item other) :
    grounds.Alike schema depth entered (.array items) (.array others) := by
  cases schema with
  | leaf | nullable | union | intersection | reference => cases hs
  | list element => exact .items rfl h (ih element rfl)
  | json => exact .items rfl h (ih .json rfl)
  | any =>
    rw [Alike, accept_structural _ _ _ _ rfl, accept_structural _ _ _ _ rfl]
    exact .some (.array h)
  | struct | object | record =>
    rw [Alike, accept_structural _ _ _ _ rfl, accept_structural _ _ _ _ rfl]
    exact .none

/-- A structural schema accepts objects alike if what it asks of them is accepted alike. -/
theorem Alike.of_object {schema : Schema} {entries others : List (String × Json)}
    (hs : schema.isStructural) (hkeys : (entries.map Prod.fst).Nodup)
    (h : (Json.object entries).Reordered (.object others))
    (ihentries : ∀ entry, schema.entrySchema? = some entry → ∀ segment part item,
      .present segment part item ∈ Child.ofEntries entry entries →
      ∀ other, item.Reordered other → grounds.Alike part (depth + 1) [] item other)
    (ihfields : ∀ fields, schema.fields? = some fields → ∀ segment part item,
      .present segment part item ∈ fields.map (Child.ofField entries) →
      ∀ other, item.Reordered other → grounds.Alike part (depth + 1) [] item other) :
    grounds.Alike schema depth entered (.object entries) (.object others) := by
  cases schema with
  | leaf | nullable | union | intersection | reference => cases hs
  | record entry => exact .entries rfl h (ihentries entry rfl)
  | json => exact .entries rfl h (ihentries .json rfl)
  | struct fields | object _ fields => exact .fields rfl hkeys h (ihfields fields rfl)
  | any =>
    rw [Alike, accept_structural _ _ _ _ rfl, accept_structural _ _ _ _ rfl]
    exact .some h
  | list =>
    rw [Alike, accept_structural _ _ _ _ rfl, accept_structural _ _ _ _ rfl]
    exact .none

/-- Values that are equal up to the order of keys are accepted alike by every schema of a
graph. -/
theorem alike_of_reordered {root : Schema} (hflat : grounds.policy.Flat)
    (hfields : root.DistinctFields grounds.targets) (schema : Schema) (value other : Json)
    (depth : Nat) (entered : List CellId) (hr : Schema.Reaches grounds.targets root schema)
    (hd : value.DistinctKeys) (h : value.Reordered other) :
    grounds.Alike schema depth entered value other := by
  have houtput : ∀ part, Schema.Reaches grounds.targets root part → ∀ output,
      grounds.accept part value depth entered = some output → output.DistinctKeys :=
    fun part hpart output ho => accept_distinctKeys hflat hfields hpart hd ho
  -- the values of the children have distinct keys and nest less deeply
  have hchildren : ∀ children assemble, Container schema value children assemble →
      ∀ segment part item, .present segment part item ∈ children →
        ∀ other, item.Reordered other → grounds.Alike part (depth + 1) [] item other :=
    fun children assemble hc segment part item hm other hitem =>
      have hlt := hc.nesting_lt hm
      alike_of_reordered hflat hfields part item other (depth + 1) [] (hr.child hc hm)
        (hc.within hd hm).2 hitem
  cases schema with
  | nullable inner =>
    have hnull : value.isNull = other.isNull := by cases h <;> rfl
    rw [Alike, accept, accept, hnull]
    split
    · exact .some .null
    · exact alike_of_reordered hflat hfields inner value other depth entered
        (hr.part (List.mem_singleton_self _)) hd h
  | union members =>
    rw [Alike, accept, accept]
    exact acceptFirst_reordered fun member hm =>
      alike_of_reordered hflat hfields member value other depth entered (hr.part hm) hd h
  | intersection members =>
    rw [Alike, accept, accept]
    refine acceptEvery_reordered h (fun a ha => by cases ha) .none
      (fun member hm => houtput member (hr.part hm)) fun member hm => ?_
    exact alike_of_reordered hflat hfields member value other depth entered (hr.part hm) hd h
  | reference r =>
    by_cases henter : entered.length < maxHops ∧ r.cell ∉ entered
    · rw [Alike, accept_reference grounds value depth henter,
        accept_reference grounds other depth henter]
      cases ht : grounds.targets r.cell with
      | none => exact .none
      | some target =>
        exact alike_of_reordered hflat hfields target value other depth (r.cell :: entered)
          (hr.target ht) hd h
    · rw [Alike, accept_reference_blocked grounds value depth henter,
        accept_reference_blocked grounds other depth henter]
      exact .none
  | leaf leaf =>
    cases h with
    | null | bool | number | string => exact .refl (houtput _ hr)
    | array | object => exact .refused hflat (by simp [Json.isScalar]) (by simp [Json.isScalar])
  | list | struct | object | record | json | any =>
    cases h with
    | null | bool | number | string => exact .refl (houtput _ hr)
    | array hrow => exact .of_array rfl hrow fun element he => hchildren _ _ (.items he)
    | object hperm hkeys hrow =>
      exact .of_object rfl hd.keys (.object hperm hkeys hrow)
        (fun entry he => hchildren _ _ (.entries he)) fun fields hf => hchildren _ _ (.fields hf)
termination_by (value.nesting, maxHops - entered.length, sizeOf schema)
decreasing_by
  · exact .left _ _ hlt
  · subst_vars
    exact .right _ (.right _ (Schema.sizeOf_part (List.mem_singleton_self _)))
  · subst_vars
    exact .right _ (.right _ (Schema.sizeOf_part hm))
  · subst_vars
    exact .right _ (.right _ (Schema.sizeOf_part hm))
  · exact .right _ (.left _ _ (by rw [List.length_cons]; omega))

end Grounds

/-- For a built-in policy the order of keys does not matter: a value is accepted exactly if it is
accepted with its keys in another order, at any depth, and then the outputs are equal up to
the order of keys. It makes no difference what was resolved meanwhile. -/
theorem validate_ignores_key_order (schema : Schema) (settings : Settings)
    (session later : Session) (hsame : later.store.target? = session.store.target?)
    (hfields : schema.DistinctFields session.store.target?) (value other : Json)
    (hkeys : value.DistinctKeys) (h : value.Reordered other) :
    ((∃ output, ((Validator.ofSettings schema settings).validate value session).1 = .ok output) ↔
      ∃ output, ((Validator.ofSettings schema settings).validate other later).1 = .ok output) ∧
    ∀ output again,
      ((Validator.ofSettings schema settings).validate value session).1 = .ok output →
      ((Validator.ofSettings schema settings).validate other later).1 = .ok again →
      output.Reordered again := by
  have hflat : settings.policy.policy.Flat := settings.policy.policy_flat
  have halike : ((Validator.ofSettings schema settings).grounds session.store).Alike
      (Validator.ofSettings schema settings).schema 0 [] value other :=
    Grounds.alike_of_reordered hflat hfields schema value other 0 [] .root hkeys h
  rw [Grounds.Alike] at halike
  simp only [Validator.validate_eq_ok_iff]
  rw [Rules.grounds_congr _ hsame]
  generalize Grounds.accept _ _ value 0 [] = x at halike ⊢
  generalize Grounds.accept _ _ other 0 [] = y at halike ⊢
  cases halike with
  | none => exact ⟨.rfl, fun output again ho => by cases ho⟩
  | some hr =>
    refine ⟨⟨fun _ => ⟨_, rfl⟩, fun _ => ⟨_, rfl⟩⟩, fun output again ho ha => ?_⟩
    cases ho
    cases ha
    exact hr

/-- A node has notes under any keys, flags or texts, and a node below it. -/
def notesNode : Schema :=
  .struct [⟨"notes", .record (.union [.leaf .boolean, .leaf .string]), none, false⟩,
    ⟨"below", .nullable (.reference ⟨0, .back⟩), none, false⟩]

/-- A node that keeps all of its keys. -/
def notesTree : Schema := .intersection [.record .json, .reference ⟨0, .owner⟩]

/-- A session in which the definition of a node is complete. -/
def notesSession : Session := ⟨Store.empty.setCell 0 (.filled notesNode), #[]⟩

/-- A node with two notes. -/
def twoNotes : Json :=
  .object [("below", .object [("notes", .object [])]),
    ("notes", .object [("x", .bool true), ("y", .string "two")])]

/-- The same node with its keys, and those of its notes, in another order. -/
def twoNotesTurned : Json :=
  .object [("notes", .object [("y", .string "two"), ("x", .bool true)]),
    ("below", .object [("notes", .object [])])]

/-- What occurs in the graph of a node that keeps all of its keys. -/
theorem notesTree_reaches {schema : Schema}
    (h : Schema.Reaches notesSession.store.target? notesTree schema) :
    schema ∈ [notesTree, .record .json, .json, .reference ⟨0, .owner⟩, notesNode,
      .record (.union [.leaf .boolean, .leaf .string]), .union [.leaf .boolean, .leaf .string],
      .leaf .boolean, .leaf .string, .nullable (.reference ⟨0, .back⟩),
      .reference ⟨0, .back⟩] := by
  refine h.mem_of_closed (P := (· ∈ _)) (by simp) ?_ ?_
  · intro whole hw part hp
    simp only [List.mem_cons, List.not_mem_nil, or_false] at hw
    rcases hw with rfl | rfl | rfl | rfl | rfl | rfl | rfl | rfl | rfl | rfl | rfl <;>
      simp only [notesTree, notesNode, Schema.parts, List.map_cons, List.map_nil,
        List.mem_cons, List.not_mem_nil, or_false] at hp
    · rcases hp with rfl | rfl <;> simp
    · rcases hp with rfl; simp
    · rcases hp with rfl | rfl <;> simp
    · rcases hp with rfl; simp
    · rcases hp with rfl | rfl <;> simp
    · rcases hp with rfl; simp
  · intro r hr target ht
    simp [notesTree, notesNode] at hr
    rcases hr with rfl | rfl <;> cases ht <;> simp

/-- The two nodes are equal up to the order of keys. -/
theorem twoNotes_turned : twoNotes.Reordered twoNotesTurned := by
  have hnotes : (Json.object [("x", .bool true), ("y", .string "two")]).Reordered
      (.object [("y", .string "two"), ("x", .bool true)]) :=
    .object (.swap _ _ []) rfl (.cons (.string _) (.cons (.bool _) .nil))
  have hbelow : (Json.object [("notes", .object [])]).Reordered
      (.object [("notes", .object [])]) :=
    .object (.refl _) rfl (.cons (.object .nil rfl .nil) .nil)
  exact .object (.swap _ _ []) rfl (.cons hnotes (.cons hbelow .nil))

/-- No key of the node is given twice. -/
theorem twoNotes_distinctKeys : twoNotes.DistinctKeys := by
  refine .object (by decide) fun entry he => ?_
  simp only [List.mem_cons, List.not_mem_nil, or_false] at he
  rcases he with rfl | rfl <;> refine .object (by decide) fun entry he => ?_
  · rw [List.mem_singleton.mp he]
    exact .object (by decide) fun entry he => by cases he
  · simp only [List.mem_cons, List.not_mem_nil, or_false] at he
    rcases he with rfl | rfl
    · exact .bool _
    · exact .string _

/-- Once a node was accepted, it is accepted with its keys in another order, and gives the same
up to the order of keys. -/
theorem notesTree_reordered :
    ∃ again, ((Validator.ofSettings notesTree {}).validate twoNotesTurned
        ((Validator.ofSettings notesTree {}).validate twoNotes notesSession).2).1 = .ok again ∧
      twoNotes.Reordered again := by
  have hfields : notesTree.DistinctFields notesSession.store.target? := by
    intro schema fields hr hf
    have hmem := notesTree_reaches hr
    simp only [List.mem_cons, List.not_mem_nil, or_false] at hmem
    rcases hmem with rfl | rfl | rfl | rfl | rfl | rfl | rfl | rfl | rfl | rfl | rfl <;> cases hf
    decide
  obtain ⟨hiff, hout⟩ := validate_ignores_key_order notesTree {} notesSession
    ((Validator.ofSettings notesTree {}).validate twoNotes notesSession).2
    (Validator.validate_gives _ _ _).2 hfields twoNotes twoNotesTurned twoNotes_distinctKeys
    twoNotes_turned
  have hfirst : ((Validator.ofSettings notesTree {}).validate twoNotes notesSession).1 =
      .ok twoNotes := (Validator.validate_eq_ok_iff _ _ _ _).mpr (by cbv)
  obtain ⟨again, hagain⟩ := hiff.mp ⟨_, hfirst⟩
  exact ⟨again, hagain, hout _ _ hfirst hagain⟩

end Conformance
