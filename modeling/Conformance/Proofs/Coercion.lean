import Conformance.Proofs.Pruning

/-!
# Coerced values are strict

What the policy that reads text makes of a value, the strict policy accepts and gives
again, if no union is in the graph. The argument has two parts. An output that is checked
again is given again, as data, so the second check coerces nothing and prunes nothing that
counts. And a check that leaves the data of a value in place is one that the strict policy
makes, too: in an intersection each member gives a part of the value, whatever other keys
the value has.
-/

namespace Conformance

/-- A number that is rounded toward zero to the same data is integral, and is not changed. -/
theorem Number.truncate_same {n : Number} (h : n.sameData n.truncate) :
    n.truncate = n ∧ n.isIntegral := by
  cases n with
  | int n hn => exact ⟨truncate_int, isIntegral_int⟩
  | float x =>
    by_cases hx : fitsSigned x.integerPart
    · obtain ⟨_, hint⟩ := truncate_of_fitsSigned hx
      rw [hint] at h
      cases h
    · exact ⟨truncate_of_not_fitsSigned hx, x.isInteger_of_not_fitsSigned hx⟩

namespace Policy

/-- What reads as a number is a number. -/
theorem lenientNumber_number {value output : Json} (h : lenientNumber value = .ok output) :
    ∃ n, output = .number n := by
  unfold lenientNumber at h
  split at h
  · cases h
    exact ⟨_, rfl⟩
  · split at h <;> cases h
    exact ⟨_, rfl⟩
  · cases h

/-- What the policy that reads text leaves in place as data, the strict policy accepts. -/
theorem strict_of_nonStrict_same {leaf : Leaf} {value output : Json}
    (h : nonStrict.check leaf value = .ok output) (hsame : value.Same output) :
    strict.check leaf value = .ok output := by
  cases leaf with
  | string | id | literal => exact h
  | number | float =>
    cases value with
    | number n => exact h
    | string text =>
      have hread : lenientNumber (.string text) = .ok output := h
      obtain ⟨n, rfl⟩ := lenientNumber_number hread
      cases hsame
    | _ => cases h
  | int =>
    cases value with
    | number n =>
      cases h
      obtain ⟨hunchanged, hintegral⟩ := Number.truncate_same hsame
      change strictInt (.number n) = _
      rw [strictInt, if_pos hintegral, hunchanged]
    | string text =>
      have hread : lenientInt (.string text) = .ok output := h
      obtain ⟨n, rfl⟩ := lenientInt_number hread
      cases hsame
    | _ => cases h
  | boolean =>
    cases value with
    | bool b => exact h
    | string text =>
      have hread : lenientBoolean (.string text) = .ok output := h
      obtain ⟨b, rfl⟩ := lenientBoolean_bool hread
      cases hsame
    | _ => cases h

end Policy

/-- No union occurs in the graph of a schema. -/
def Schema.UnionFree (targets : Targets) (root : Schema) : Prop :=
  ∀ members, ¬Schema.Reaches targets root (.union members)

/-- Without unions no union turns back. -/
theorem Schema.UnionFree.settled {grounds : Grounds} {root : Schema}
    (h : root.UnionFree grounds.targets) (document result : Json) :
    grounds.Settled root document result :=
  fun _ _ _ _ _ _ _ _ hmeets => absurd hmeets.reaches (h _)

/-- What is said of a value that the policy that reads text accepts: if the value has all
data of the output, the strict policy accepts it, too, with this very output. -/
def inPlace (maxDepth : Nat) (targets : Targets) (root : Schema) : Grounds.Motive :=
  fun schema value depth entered output => Schema.Reaches targets root schema →
    value.DistinctKeys → value.Extends output →
    Grounds.accept ⟨.strict, maxDepth, targets⟩ schema value depth entered = some output

section Steps

variable {maxDepth : Nat} {targets : Targets} {root schema : Schema} {depth : Nat}
  {entered : List CellId} {outputs : List (Option Json)}

/-- What the policy that reads text gives for a part of the value that is equal data, the
strict policy gives. -/
theorem inPlace.of_same {value output : Json} (hfields : root.DistinctFields targets)
    (h : inPlace maxDepth targets root schema value depth entered output)
    (haccept : Grounds.accept ⟨.nonStrict, maxDepth, targets⟩ schema value depth entered =
      some output)
    (hr : Schema.Reaches targets root schema) (hd : value.DistinctKeys)
    (hsame : value.Same output) :
    Grounds.accept ⟨.strict, maxDepth, targets⟩ schema value depth entered = some output := by
  have houtput : output.DistinctKeys :=
    Grounds.accept_distinctKeys PolicyKind.nonStrict.policy_flat hfields hr hd haccept
  exact h hr hd (hsame.extends hd houtput)

/-- A list that is left in place is accepted item by item. -/
theorem inPlace_items {element : Schema} {items : List Json}
    (hfields : root.DistinctFields targets) (he : schema.itemSchema? = some element)
    (hdepth : depth < maxDepth)
    (hrow : List.Forall₂ (Grounds.ChildOutput ⟨.nonStrict, maxDepth, targets⟩
      (inPlace maxDepth targets root) depth) (Child.ofItems element 0 items) outputs) :
    inPlace maxDepth targets root schema (.array items) depth entered
      (.array (outputs.filterMap fun output => output)) := by
  intro hr hd hext
  obtain ⟨outs, rfl, houts⟩ := Grounds.items_outputs hrow
  have houtput : (outs.map some).filterMap (fun output => output) = outs := by simp
  rw [houtput] at hext ⊢
  have hsame := Json.same_array.mp (hext.same_of_not_object fun kept h => by cases h)
  refine Grounds.accept_items he hdepth (forall₂_imp_of_getElem? houts ?_)
  rintro i item w hi hw ⟨haccept, ih⟩
  obtain ⟨other, ho, hs⟩ := exists_of_forall₂_of_getElem? hsame hi
  cases ho.symm.trans hw
  exact ih.of_same hfields haccept (hr.itemSchema he) (hd.item (List.mem_of_getElem? hi)) hs

/-- A record that is left in place is accepted entry by entry. -/
theorem inPlace_entries {entry : Schema} {entries : List (String × Json)}
    (hfields : root.DistinctFields targets) (he : schema.entrySchema? = some entry)
    (hdepth : depth < maxDepth)
    (hrow : List.Forall₂ (Grounds.ChildOutput ⟨.nonStrict, maxDepth, targets⟩
      (inPlace maxDepth targets root) depth) (Child.ofEntries entry entries) outputs) :
    inPlace maxDepth targets root schema (.object entries) depth entered
      (.object (nameOutputs (entries.map Prod.fst) outputs)) := by
  intro hr hd hext
  obtain ⟨outs, rfl, houts⟩ := Grounds.entries_outputs hrow
  have hlength : (entries.map Prod.fst).length = (outs.map some).length := by
    simpa using houts.length_eq
  have hlookup := lookup_nameOutputs hd.keys hlength
  rw [List.forall₂_map_left_iff, List.forall₂_map_right_iff] at hlookup
  refine Grounds.accept_entries he hdepth ?_
  refine forall₂_imp_of_mem (List.Forall₂.mp (fun _ _ => And.intro) houts hlookup) ?_
  rintro ⟨key, value⟩ hm w _ ⟨⟨haccept, ih⟩, houtput⟩
  obtain ⟨y, hy, hsame⟩ := hext key w houtput
  cases (Entries.lookup_of_mem hd.keys hm).symm.trans hy
  exact ih.of_same hfields haccept (hr.entrySchema he) (hd.entry hm) hsame

/-- An object that is left in place is accepted field by field. -/
theorem inPlace_fields {fields : List (Field Schema)} {entries : List (String × Json)}
    (hfields : root.DistinctFields targets) (hf : schema.fields? = some fields)
    (hdepth : depth < maxDepth)
    (hrow : List.Forall₂ (Grounds.ChildOutput ⟨.nonStrict, maxDepth, targets⟩
      (inPlace maxDepth targets root) depth) (fields.map (Child.ofField entries)) outputs) :
    inPlace maxDepth targets root schema (.object entries) depth entered
      (.object (nameOutputs (fields.map Field.name) outputs)) := by
  intro hr hd hext
  have hnames := hfields schema fields hr hf
  have hrow := List.forall₂_map_left_iff.mp hrow
  have hlookup := lookup_nameOutputs hnames (by simpa using hrow.length_eq)
  rw [List.forall₂_map_left_iff] at hlookup
  refine Grounds.accept_fields hf hdepth ?_
  refine forall₂_imp_of_mem (List.Forall₂.mp (fun _ _ => And.intro) hrow hlookup) ?_
  rintro field hm output _ ⟨hchild, houtput⟩
  cases hl : Entries.lookup field.name entries with
  | some value =>
    rw [Child.ofField, hl] at hchild ⊢
    cases hchild with
    | @present _ _ _ w haccept ih =>
      obtain ⟨y, hy, hsame⟩ := hext field.name w houtput
      cases hl.symm.trans hy
      have haccept := ih.of_same hfields haccept (hr.field hf hm) (hd.lookup hl) hsame
      rw [Grounds.acceptChild, haccept, Option.map_some]
  | none =>
    rw [Child.ofField, hl] at hchild ⊢
    cases hchild with
    | absent habsent => rw [Grounds.acceptChild, if_pos habsent]

/-- The members of an intersection are left in place with what they are merged into. -/
theorem inPlace_intersection {members : List Schema} {outputs : List Json} {all : Option Json}
    {value : Json} (hfields : root.DistinctFields targets)
    (hrow : List.Forall₂ (fun member output =>
      Grounds.accept ⟨.nonStrict, maxDepth, targets⟩ member value depth entered = some output ∧
        inPlace maxDepth targets root member value depth entered output) members outputs)
    (hall : mergeAll none outputs = some all) :
    inPlace maxDepth targets root (.intersection members) value depth entered
      (all.getD value) := by
  intro hr hd hext
  rw [Grounds.accept]
  refine Grounds.acceptEvery_eq_some.mpr ⟨outputs, all, ?_, hall, rfl⟩
  have hout : ∀ w ∈ outputs, w.DistinctKeys := by
    intro w hw
    obtain ⟨member, hm, haccept, _⟩ := exists_of_forall₂_of_mem hrow.flip hw
    exact Grounds.accept_distinctKeys PolicyKind.nonStrict.policy_flat hfields (hr.part hm) hd
      haccept
  refine forall₂_imp_of_mem hrow fun member hm w hw h => h.2 (hr.part hm) hd ?_
  -- what is merged extends the output of each member, so the value does
  cases all with
  | none =>
    obtain ⟨_, rfl⟩ := mergeAll_eq_none hall
    cases hw
  | some m =>
    obtain ⟨hm, _, hextends⟩ := mergeAll_extends (fun a ha => by cases ha) hout hall rfl
    exact Json.Extends.trans hd hm (hout w hw) hext (hextends w hw)

theorem inPlace_inductive (hfields : root.DistinctFields targets)
    (hfree : root.UnionFree targets) :
    Grounds.Inductive ⟨.nonStrict, maxDepth, targets⟩ (inPlace maxDepth targets root) where
  leaf leaf value depth entered output h _ _ hext := by
    obtain ⟨_, hscalar, _⟩ := Policy.nonStrict_settling leaf value output h
    have hsame : value.Same output :=
      hext.same_of_not_object fun kept heq => by rw [heq] at hscalar; cases hscalar
    have hstrict := Policy.strict_of_nonStrict_same h hsame
    rw [Grounds.accept]
    change (Policy.strict.check leaf value).toOption = _
    rw [hstrict]
    rfl
  null inner depth entered _ _ _ := by
    rw [Grounds.accept]
    rfl
  nullable inner value depth entered output hnull _ ih hr hd hext := by
    rw [Grounds.accept, if_neg hnull]
    exact ih (hr.part (List.mem_singleton_self _)) hd hext
  union before member after value depth entered output _ _ _ hr := absurd hr (hfree _)
  intersection members outputs all value depth entered hrow hall :=
    inPlace_intersection hfields hrow hall
  reference r target value depth entered output henter ht _ ih hr hd hext := by
    rw [Grounds.accept_reference _ value depth henter]
    have htarget : targets r.cell = some target := ht
    change (targets r.cell).bind _ = _
    rw [htarget]
    exact ih (hr.target ht) hd hext
  any value depth entered _ _ _ := by
    rw [Grounds.accept_structural _ value depth entered rfl]
    rfl
  scalar value depth entered hscalar _ _ _ := by
    rw [Grounds.accept_structural _ value depth entered rfl]
    cases value with
    | array | object => simp [Json.nesting] at hscalar
    | _ => rfl
  container schema value depth entered children assemble outputs hc hdepth hrow := by
    cases hc with
    | items he => exact inPlace_items hfields he hdepth hrow
    | entries he => exact inPlace_entries hfields he hdepth hrow
    | fields hf => exact inPlace_fields hfields hf hdepth hrow

end Steps

/-- Coercion lands in the strict language: if no union is in the graph, what the policy that
reads text gives is accepted by the strict policy, with the same schema and depth limit, and
given again, as data. -/
theorem strict_accepts_nonStrict_output (schema : Schema) (mode again : Mode) (maxDepth : Nat)
    (session later : Session) (hgraph : later.store.target? = session.store.target?)
    (hfields : schema.DistinctFields session.store.target?)
    (hfree : schema.UnionFree session.store.target?) (value output : Json)
    (hkeys : value.DistinctKeys)
    (h : ((Validator.ofSettings schema ⟨.nonStrict, mode, maxDepth⟩).validate value session).1 =
      .ok output) :
    ∃ result, ((Validator.ofSettings schema ⟨.strict, again, maxDepth⟩).validate output later).1 =
        .ok result ∧ result.sameData output := by
  have hflat : Policy.nonStrict.Flat := PolicyKind.nonStrict.policy_flat
  have haccept := (Validator.validate_eq_ok_iff _ value output session).mp h
  have htrims := Grounds.accept_trims hflat haccept
  have hdistinct := Grounds.accept_distinctKeys hflat hfields .root hkeys haccept
  have hbetween := (Json.Same.refl hdistinct).between hdistinct hdistinct htrims
  -- the output is given again, as data, so it is left in place
  have hpolicy : ((Validator.ofSettings schema ⟨.nonStrict, mode, maxDepth⟩).grounds
      session.store).policy = PolicyKind.nonStrict.policy := rfl
  obtain ⟨result, hresult, hsame⟩ := (repeating_inductive hpolicy hflat hfields
    (hfree.settled value output)).holds schema value 0 [] output haccept output .start hkeys
      hdistinct hbetween
  have hdresult := Grounds.accept_distinctKeys hflat hfields .root hdistinct hresult
  have hextends := (hsame.symm hdresult hdistinct).extends hdistinct hdresult
  have hstrict := (inPlace_inductive hfields hfree).holds schema output 0 [] result hresult .root
    hdistinct hextends
  refine ⟨result, ?_, hsame⟩
  rw [Validator.validate_eq_ok_iff, Rules.grounds_congr _ hgraph]
  exact hstrict

/-- A node with a flag. -/
def flaggedChain : Schema :=
  .intersection [.reference ⟨0, .owner⟩,
    .struct [⟨"flag", .leaf .boolean, none, false⟩]]

/-- What occurs in the graph of a node with a flag. -/
theorem flaggedChain_reaches {schema : Schema}
    (h : Schema.Reaches chainSession.store.target? flaggedChain schema) :
    schema ∈ [flaggedChain, .struct [⟨"flag", .leaf .boolean, none, false⟩], chainNode,
      .leaf .boolean, .leaf .number, .reference ⟨0, .owner⟩, .reference ⟨0, .back⟩,
      .nullable (.reference ⟨0, .back⟩)] := by
  refine h.mem_of_closed (P := (· ∈ _)) (by simp) ?_ ?_
  · intro whole hw part hp
    simp only [List.mem_cons, List.not_mem_nil, or_false] at hw
    rcases hw with rfl | rfl | rfl | rfl | rfl | rfl | rfl | rfl <;>
      simp only [flaggedChain, chainNode, Schema.parts, List.map_cons, List.map_nil,
        List.mem_cons, List.not_mem_nil, or_false] at hp
    · rcases hp with rfl | rfl <;> simp
    · rcases hp with rfl; simp
    · rcases hp with rfl | rfl <;> simp
    · rcases hp with rfl; simp
  · intro r hr target ht
    simp [flaggedChain, chainNode] at hr
    rcases hr with rfl | rfl <;> cases ht <;> simp

/-- Texts that name numbers and truth values become strict on all levels. -/
theorem flaggedChain_strict :
    ∃ result, ((Validator.ofSettings flaggedChain ⟨.strict, .failFast, 2⟩).validate
        (.object [("v", .number (.int 1 rfl)), ("next", .object [("v", .number (.int 2 rfl))]),
          ("flag", .bool true)]) chainSession).1 = .ok result ∧
      result.sameData (.object [("v", .number (.int 1 rfl)),
        ("next", .object [("v", .number (.int 2 rfl))]), ("flag", .bool true)]) := by
  have haccept : ((Validator.ofSettings flaggedChain ⟨.nonStrict, .collectAll, 2⟩).grounds
      chainSession.store).accept flaggedChain (.object [("v", .string "1"),
        ("next", .object [("v", .string " 2 ")]), ("flag", .string "true")]) 0 [] =
        some (.object [("v", .number (.int 1 rfl)), ("next", .object [("v", .number (.int 2 rfl))]),
          ("flag", .bool true)]) := by
    generalize hg : (Validator.ofSettings flaggedChain ⟨.nonStrict, .collectAll, 2⟩).grounds
      chainSession.store = grounds
    have htarget : grounds.targets 0 = some chainNode := by
      rw [← hg]
      rfl
    have hone : grounds.policy.check .number (.string "1") = .ok (.number (.int 1 rfl)) := by
      rw [← hg]
      rfl
    have htwo : grounds.policy.check .number (.string " 2 ") = .ok (.number (.int 2 rfl)) := by
      rw [← hg]
      rfl
    have hflag : grounds.policy.check .boolean (.string "true") = .ok (.bool true) := by
      rw [← hg]
      rfl
    have hdepth : grounds.maxDepth = 2 := by
      rw [← hg]
      rfl
    have hinner : grounds.accept chainNode (.object [("v", .string " 2 ")]) 1 [0] =
        some (.object [("v", .number (.int 2 rfl))]) := by
      simp [chainNode, Child.ofField, Entries.lookup, Grounds.acceptChildren, Grounds.acceptChild,
        Grounds.accept_leaf, htwo, hdepth, Grounds.accept_struct, Schema.absentWithin,
        Except.toOption]
      rfl
    have hnext : grounds.accept (.nullable (.reference ⟨0, .back⟩)) (.object [("v", .string " 2 ")])
        1 [] = some (.object [("v", .number (.int 2 rfl))]) := by
      have hnull : ¬(Json.object [("v", .string " 2 ")]).isNull := Bool.false_ne_true
      rw [Grounds.accept, if_neg hnull, Grounds.accept_reference _ _ _ (by decide),
        htarget, Option.bind_some, hinner]
    have hnode : grounds.accept chainNode (.object [("v", .string "1"),
        ("next", .object [("v", .string " 2 ")]), ("flag", .string "true")]) 0 [0] =
        some (.object [("v", .number (.int 1 rfl)),
          ("next", .object [("v", .number (.int 2 rfl))])]) := by
      simp [chainNode, Child.ofField, Entries.lookup, Grounds.acceptChildren, Grounds.acceptChild,
        Grounds.accept_leaf, hone, hnext, hdepth, Grounds.accept_struct, Except.toOption]
      rfl
    rw [flaggedChain, Grounds.accept, Grounds.acceptEvery,
      Grounds.accept_reference _ _ _ (by decide), htarget, Option.bind_some, hnode]
    simp [Child.ofField, Entries.lookup, Grounds.acceptChildren, Grounds.acceptChild,
      Grounds.accept_leaf, hflag, hdepth, Grounds.acceptEvery, Grounds.accept_struct,
      Except.toOption]
    rfl
  refine strict_accepts_nonStrict_output flaggedChain .collectAll .failFast 2 chainSession
    chainSession rfl ?_ ?_ (.object [("v", .string "1"), ("next", .object [("v", .string " 2 ")]),
      ("flag", .string "true")]) _ ?_ ((Validator.validate_eq_ok_iff _ _ _ _).mpr haccept)
  · intro schema fields hr hf
    have hmem := flaggedChain_reaches hr
    simp only [List.mem_cons, List.not_mem_nil, or_false] at hmem
    rcases hmem with rfl | rfl | rfl | rfl | rfl | rfl | rfl | rfl <;> cases hf <;> decide
  · intro members hr
    have hmem := flaggedChain_reaches hr
    simp [flaggedChain, chainNode] at hmem
  · refine .object (by decide) fun entry he => ?_
    simp only [List.mem_cons, List.not_mem_nil, or_false] at he
    rcases he with rfl | rfl | rfl
    · exact .string _
    · refine .object (by decide) fun entry he => ?_
      rw [List.mem_singleton.mp he]
      exact .string _
    · exact .string _

end Conformance
