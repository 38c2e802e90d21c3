import Conformance.Proofs.Contractive
import Conformance.Proofs.Repetition

/-!
# Undeclared keys

Where only structs and objects stand at the root of a schema, a check of an object looks
up the declared names and nothing else. So two objects that agree on the declared names
are checked alike, step for step, and what is accepted has declared keys only. The root
of a schema goes through unions, intersections, nullable schemas and references, but into
no field.
-/

namespace Conformance

namespace Schema

/-- A schema stands at the root position of another, before any field is entered. -/
def AtRoot (targets : Targets) (root schema : Schema) : Prop :=
  ∃ cells, ComesTo targets root cells schema

/-- Whether a schema declares fields, or combines schemas that stand at its place. An
intersection has members. -/
def isOfObjects : Schema → Bool
  | .struct _ | .object _ _ | .union _ | .nullable _ | .reference _ => true
  | .intersection members => !members.isEmpty
  | _ => false

/-- At the root position only structs and objects are combined; what their fields have to
meet is open. -/
def ObjectsAtRoot (targets : Targets) (root : Schema) : Prop :=
  ∀ schema, AtRoot targets root schema → schema.isOfObjects

/-- A struct or object at the root position declares a field of the name. -/
def Declares (targets : Targets) (root : Schema) (name : String) : Prop :=
  ∃ schema fields, AtRoot targets root schema ∧ schema.fields? = some fields ∧
    name ∈ fields.map Field.name

section AtRoot

variable {targets : Targets} {root schema : Schema}

/-- A schema stands at its own root. -/
theorem AtRoot.self (targets : Targets) (root : Schema) : AtRoot targets root root :=
  ⟨[], .start⟩

/-- With what is no container its parts stand at the root. -/
theorem AtRoot.part {whole : Schema} (h : AtRoot targets root whole)
    (hs : whole.isStructural = false) (hp : schema ∈ whole.parts) : AtRoot targets root schema :=
  let ⟨cells, hc⟩ := h
  ⟨cells, hc.part hs hp⟩

/-- With a reference the schema in its cell stands at the root. -/
theorem AtRoot.target {r : Reference} (h : AtRoot targets root (.reference r))
    (ht : targets r.cell = some schema) : AtRoot targets root schema :=
  let ⟨cells, hc⟩ := h
  ⟨r.cell :: cells, hc.target ht⟩

/-- What holds of the root, and carries over to parts of what is no container and to what
is behind references, holds of everything at the root position. -/
theorem AtRoot.of_closed {P : Schema → Prop} (h : AtRoot targets root schema) (hroot : P root)
    (hpart : ∀ whole, P whole → whole.isStructural = false → ∀ part ∈ whole.parts, P part)
    (htarget : ∀ r, P (.reference r) → ∀ target, targets r.cell = some target → P target) :
    P schema := by
  obtain ⟨cells, hc⟩ := h
  induction hc with
  | start => exact hroot
  | part _ hs hp ih => exact hpart _ ih hs _ hp
  | target _ ht ih => exact htarget _ ih _ ht

/-- At a root of objects an object is taken apart by declared fields only. -/
theorem fields_of_isOfObjects (h : schema.isOfObjects) {entries : List (String × Json)}
    {children : List Child} {assemble : List (Option Json) → Json}
    (hc : Container schema (.object entries) children assemble) :
    ∃ fields, schema.fields? = some fields ∧ children = fields.map (Child.ofField entries) ∧
      assemble = fun outputs => .object (nameOutputs (fields.map Field.name) outputs) := by
  cases hc with
  | @entries entry _ he => cases schema <;> simp [entrySchema?, isOfObjects] at he h
  | @fields fields _ hf => exact ⟨fields, hf, rfl, rfl⟩

end AtRoot

end Schema

/-- Two objects agree on every declared name: both lack it, or both have the same value
under it. -/
def AgreeOnDeclared (targets : Targets) (root : Schema) (entries others : List (String × Json)) :
    Prop :=
  ∀ name, Schema.Declares targets root name →
    Entries.lookup name entries = Entries.lookup name others

/-- In every function of a check that stays at the root, two objects are treated alike:
the outcome and the session afterwards are the same. -/
def alikeAtRoot (targets : Targets) (root : Schema) (entries others : List (String × Json)) :
    Walk where
  ofSchema rules schema value here := value = .object entries → root.AtRoot targets schema →
    ∀ session : Session, session.store.target? = targets →
      check rules schema (.object entries) here session =
        check rules schema (.object others) here session
  ofChild _ _ _ := True
  ofChildren _ _ _ := True
  ofMembers rules index members value here := value = .object entries →
    (∀ member ∈ members, root.AtRoot targets member) →
    ∀ session : Session, session.store.target? = targets →
      checkMembers rules index members (.object entries) here session =
        checkMembers rules index members (.object others) here session
  ofEvery rules index members merged value here := value = .object entries →
    (∀ member ∈ members, root.AtRoot targets member) → (members = [] → merged.isSome) →
    ∀ session : Session, session.store.target? = targets →
      checkEvery rules index members merged (.object entries) here session =
        checkEvery rules index members merged (.object others) here session

theorem alikeAtRoot_inductive {targets : Targets} {root : Schema}
    {entries others : List (String × Json)} (hroot : root.ObjectsAtRoot targets)
    (hagree : AgreeOnDeclared targets root entries others) :
    (alikeAtRoot targets root entries others).Inductive where
  leaf rules leaf value here _ hr := absurd (hroot _ hr) Bool.false_ne_true
  null rules inner value here hnull hv := by
    rw [hv] at hnull
    cases hnull
  nullable rules inner value here _ ih hv hr session hs := by
    have hobject : ∀ row, ¬(Json.object row).isNull := fun _ => Bool.false_ne_true
    rw [check_nullable _ _ _ _ _ (hobject entries), check_nullable _ _ _ _ _ (hobject others)]
    exact ih hv (hr.part rfl (List.mem_singleton_self _)) session hs
  union rules members value here ih hv hr session hs := by
    rw [check_union, check_union, ih hv (fun member hm => hr.part rfl hm) session hs]
  intersection rules members value here ih hv hr session hs := by
    rw [check_intersection, check_intersection]
    refine ih hv (fun member hm => hr.part rfl hm) (fun hnil => ?_) session hs
    rw [hnil] at hr
    exact absurd (hroot _ hr) Bool.false_ne_true
  followed rules r value here he ih hv hr session hs := by
    obtain ⟨later, hf, hl⟩ := Session.onStore_fetch? session r.cell
    rw [check_reference _ _ _ _ he, check_reference _ _ _ _ he, hf, hs]
    cases ht : targets r.cell with
    | none => rfl
    | some target => exact ih target hv (hr.target ht) later (hl.trans hs)
  blocked rules r value here he _ _ session _ := by
    rw [check_reference_blocked _ _ _ _ he, check_reference_blocked _ _ _ _ he]
  plain rules schema value here hstructural hview hv hr := by
    have hobjects := hroot _ hr
    rcases View.plain_of hstructural hview with rfl | ⟨rfl, _⟩ <;> cases hobjects
  mismatch rules schema value here expected hview hv hr := by
    have hobjects := hroot _ hr
    subst hv
    cases schema <;> cases hview
    cases hobjects
  deep rules schema value here children assemble hc hd hv hr session _ := by
    subst hv
    obtain ⟨fields, hf, rfl, rfl⟩ := Schema.fields_of_isOfObjects (hroot _ hr) hc
    have hother : Container schema (.object others) _ _ := .fields hf
    rw [check_deep hc hd, check_deep hother hd]
  container rules schema value here children assemble hc hd _ hv hr session _ := by
    subst hv
    obtain ⟨fields, hf, rfl, rfl⟩ := Schema.fields_of_isOfObjects (hroot _ hr) hc
    have hchildren : fields.map (Child.ofField entries) = fields.map (Child.ofField others) := by
      refine List.map_congr_left fun field hm => ?_
      have hname := hagree field.name ⟨schema, fields, hr, hf, List.mem_map_of_mem hm⟩
      rw [Child.ofField, Child.ofField, hname]
    have hother : Container schema (.object others) _ _ := .fields hf
    rw [check_container hc hd, check_container hother hd, hchildren]
  present _ _ _ _ _ _ := trivial
  absent _ _ _ _ := trivial
  noChildren _ _ := trivial
  moreChildren _ _ _ _ _ _ := trivial
  noMembers rules index value here _ _ session _ := by
    rw [checkMembers_nil, checkMembers_nil]
  moreMembers rules index member rest value here ihm ihr hv hr session hs := by
    obtain ⟨hfirst, hrest⟩ := List.forall_mem_cons.mp hr
    have hlater := (check_gives rules member (.object others) here session).2
    rw [checkMembers_cons, checkMembers_cons, ihm hv hfirst session hs]
    rcases hm : check rules member (.object others) here session with ⟨report | output, later⟩
    · rw [hm] at hlater
      dsimp only
      rw [ihr hv hrest (Session.record (.memberRejected index report.head) later).2
        (hlater.trans hs)]
    · rfl
  everyDone rules index merged value here _ _ hmerged session _ := by
    rw [checkEvery_nil, checkEvery_nil]
    obtain ⟨output, rfl⟩ := Option.isSome_iff_exists.mp (hmerged rfl)
    rfl
  everyMore rules index member rest merged value here ihm ihr hv hr _ session hs := by
    obtain ⟨hfirst, hrest⟩ := List.forall_mem_cons.mp hr
    have hlater := (check_gives rules member (.object others) here session).2
    rw [checkEvery_cons, checkEvery_cons, ihm hv hfirst session hs]
    rcases hm : check rules member (.object others) here session with ⟨report | output, later⟩
    · rfl
    · rw [hm] at hlater
      dsimp only
      cases mergeInto merged output with
      | error way => rfl
      | ok both => exact ihr both hv hrest (fun _ => rfl) later (hlater.trans hs)

/-- The value is an object, and all its keys are declared. -/
def Json.KeysDeclared (targets : Targets) (root : Schema) : Json → Prop
  | .object kept => ∀ key ∈ kept.map Prod.fst, root.Declares targets key
  | _ => False

/-- Merging adds no keys that neither output has. -/
theorem Json.KeysDeclared.mergeOutputs {targets : Targets} {root : Schema}
    {previous next output : Json} (hp : previous.KeysDeclared targets root)
    (hn : next.KeysDeclared targets root) (h : mergeOutputs previous next = .ok output) :
    output.KeysDeclared targets root := by
  rcases mergeOutputs_cases h with ⟨merged, addition, result, rfl, rfl, rfl, hm⟩ | ⟨_, _, rfl⟩
  · intro key hk
    rw [← Entries.lookup_isSome_iff, lookup_mergeEntries hm] at hk
    rcases hk with hk | hk
    · exact hp key (Entries.lookup_isSome_iff.mp hk)
    · exact hn key (Entries.lookup_isSome_iff.mp hk)
  · exact hp

/-- An output that an object has at the root position has declared keys only. -/
def keysDeclared (targets : Targets) (root : Schema) : Grounds.Motive :=
  fun schema value _ _ output => (∃ entries, value = .object entries) →
    root.AtRoot targets schema → output.KeysDeclared targets root

theorem keysDeclared_inductive {grounds : Grounds} {root : Schema}
    (hroot : root.ObjectsAtRoot grounds.targets) :
    grounds.Inductive (keysDeclared grounds.targets root) where
  leaf leaf value depth entered output _ _ hr := absurd (hroot _ hr) Bool.false_ne_true
  null inner depth entered hv := by
    obtain ⟨entries, hv⟩ := hv
    cases hv
  nullable inner value depth entered output _ _ ih hv hr :=
    ih hv (hr.part rfl (List.mem_singleton_self _))
  union before member after value depth entered output _ _ ih hv hr :=
    ih hv (hr.part rfl (List.mem_append_right _ List.mem_cons_self))
  intersection members outputs all value depth entered hrow hall hv hr := by
    have hout : ∀ output ∈ outputs, output.KeysDeclared grounds.targets root := by
      intro output ho
      obtain ⟨member, hm, _, ih⟩ := exists_of_forall₂_of_mem hrow.flip ho
      exact ih hv (hr.part rfl hm)
    cases all with
    | some m =>
      exact mergeAll_forall (fun a b m ha hb => ha.mergeOutputs hb) (fun a ha => by cases ha)
        hout hall m rfl
    | none =>
      -- only an intersection without members gives the value itself
      obtain ⟨_, rfl⟩ := mergeAll_eq_none hall
      cases hrow
      exact absurd (hroot _ hr) Bool.false_ne_true
  reference r target value depth entered output _ ht _ ih hv hr := ih hv (hr.target ht)
  any value depth entered _ hr := absurd (hroot _ hr) Bool.false_ne_true
  scalar value depth entered _ _ hr := absurd (hroot _ hr) Bool.false_ne_true
  container schema value depth entered children assemble outputs hc _ _ hv hr := by
    obtain ⟨entries, rfl⟩ := hv
    obtain ⟨fields, hf, rfl, rfl⟩ := Schema.fields_of_isOfObjects (hroot _ hr) hc
    intro key hk
    exact ⟨schema, fields, hr, hf, (nameOutputs_keys_sublist _ outputs).subset hk⟩

/-- Where only structs and objects stand at the root, keys that none of them declares are
neither seen nor kept: objects that agree on the declared names have the same outcome and
leave the same session, and an accepted output has declared keys only. -/
theorem undeclared_neither_seen_nor_kept (validator : Validator) (session : Session)
    (hroot : validator.schema.ObjectsAtRoot session.store.target?)
    (entries : List (String × Json)) :
    (∀ others, AgreeOnDeclared session.store.target? validator.schema entries others →
      validator.validate (.object entries) session =
        validator.validate (.object others) session) ∧
    ∀ output, (validator.validate (.object entries) session).1 = .ok output →
      output.KeysDeclared session.store.target? validator.schema := by
  constructor
  · intro others hagree
    have hcheck := (alikeAtRoot_inductive hroot hagree).holds validator.toRules validator.schema
      (.object entries) .root rfl (.self _ _) session rfl
    rw [Validator.validate_eq, Validator.validate_eq, hcheck]
  · intro output h
    have haccept := (validator.validate_eq_ok_iff (.object entries) output session).mp h
    exact (keysDeclared_inductive hroot).holds validator.schema (.object entries) 0 [] output
      haccept ⟨entries, rfl⟩ (.self _ _)

/-- A definition that mentions itself in its own place, and else asks for a number. -/
def loopingCount : Schema :=
  .union [.reference ⟨0, .back⟩, .object "Count" [⟨"count", .leaf .number, none, false⟩]]

/-- A count, perhaps with a tag. -/
def taggedCount : Schema :=
  .intersection [.reference ⟨0, .owner⟩,
    .struct [⟨"tag", .nullable (.leaf .string), none, false⟩]]

/-- A session in which the definition of a count is complete. -/
def countSession : Session := ⟨Store.empty.setCell 0 (.filled loopingCount), #[]⟩

/-- Everything at the root of a tagged count is one of six schemas. -/
theorem taggedCount_atRoot {schema : Schema}
    (h : taggedCount.AtRoot countSession.store.target? schema) :
    schema ∈ [taggedCount, .reference ⟨0, .owner⟩,
      .struct [⟨"tag", .nullable (.leaf .string), none, false⟩], loopingCount,
      .reference ⟨0, .back⟩, .object "Count" [⟨"count", .leaf .number, none, false⟩]] := by
  refine h.of_closed List.mem_cons_self (fun whole hw hs part hp => ?_) fun r hr target ht => ?_
  · simp only [List.mem_cons, List.not_mem_nil, or_false] at hw
    rcases hw with rfl | rfl | rfl | rfl | rfl | rfl
    · simp only [taggedCount, Schema.parts, List.mem_cons, List.not_mem_nil, or_false] at hp
      rcases hp with rfl | rfl <;> simp
    · cases hp
    · cases hs
    · simp only [loopingCount, Schema.parts, List.mem_cons, List.not_mem_nil, or_false] at hp
      rcases hp with rfl | rfl <;> simp
    · cases hp
    · cases hs
  · have hcell : r.cell = 0 := by
      simp only [taggedCount, loopingCount, List.mem_cons, List.not_mem_nil, reduceCtorEq,
        Schema.reference.injEq, or_false, false_or] at hr
      rcases hr with rfl | rfl <;> rfl
    rw [hcell] at ht
    cases ht
    simp

/-- The key that nothing declares is not seen, though the definition of a count leads back to
itself. -/
theorem taggedCount_seals :
    (Validator.ofSettings taggedCount ⟨.nonStrict, .collectAll, 2⟩).validate
        (.object [("note", .null), ("count", .string "7")]) countSession =
      (Validator.ofSettings taggedCount ⟨.nonStrict, .collectAll, 2⟩).validate
        (.object [("count", .string "7"), ("size", .bool true)]) countSession ∧
    (Json.object [("count", .number (.int 7 rfl))]).KeysDeclared countSession.store.target?
      taggedCount := by
  have hroot : taggedCount.ObjectsAtRoot countSession.store.target? := by
    intro schema h
    have hm := taggedCount_atRoot h
    simp only [List.mem_cons, List.not_mem_nil, or_false] at hm
    rcases hm with rfl | rfl | rfl | rfl | rfl | rfl <;> rfl
  have haccept : ((Validator.ofSettings taggedCount ⟨.nonStrict, .collectAll, 2⟩).grounds
      countSession.store).accept taggedCount (.object [("note", .null), ("count", .string "7")]) 0
        [] = some (.object [("count", .number (.int 7 rfl))]) := by
    generalize hg : (Validator.ofSettings taggedCount ⟨.nonStrict, .collectAll, 2⟩).grounds
      countSession.store = grounds
    have htarget : grounds.targets 0 = some loopingCount := by
      rw [← hg]
      rfl
    have hread : grounds.policy.check .number (.string "7") = .ok (.number (.int 7 rfl)) := by
      rw [← hg]
      rfl
    have hdepth : ¬grounds.maxDepth ≤ 0 := by
      rw [← hg]
      decide
    rw [taggedCount, Grounds.accept, Grounds.acceptEvery,
      Grounds.accept_reference _ _ _ (by decide), htarget, Option.bind_some, loopingCount,
      Grounds.accept, Grounds.acceptFirst, Grounds.accept_reference_blocked _ _ _ (by decide),
      Grounds.acceptFirst, Grounds.accept_object, if_neg hdepth]
    simp [Child.ofField, Entries.lookup, Grounds.acceptChildren, Grounds.acceptChild,
      Grounds.accept_leaf, hread, hdepth, Grounds.acceptEvery, Grounds.accept_struct,
      Schema.absentWithin, Except.toOption]
    rfl
  obtain ⟨hseen, hkept⟩ := undeclared_neither_seen_nor_kept
    (Validator.ofSettings taggedCount ⟨.nonStrict, .collectAll, 2⟩) countSession hroot
    [("note", .null), ("count", .string "7")]
  refine ⟨hseen _ fun name hn => ?_, hkept _ ((Validator.validate_eq_ok_iff _ _ _ _).mpr haccept)⟩
  obtain ⟨schema, fields, h, hf, hname⟩ := hn
  have hm := taggedCount_atRoot h
  simp only [List.mem_cons, List.not_mem_nil, or_false] at hm
  rcases hm with rfl | rfl | rfl | rfl | rfl | rfl <;> cases hf <;>
    rw [List.mem_singleton.mp hname] <;> rfl

end Conformance
