import Conformance.Proofs.Collecting
import Conformance.Proofs.Nodes

/-!
# Values that pass unchanged

Where any value is accepted, none is changed. The schema for all JSON values looks into a
value only to measure its nesting: it accepts what nests within the depth limit, and reports
every container that lies at a path as long as the limit, in document order. It asks neither
the policy nor the store.
-/

namespace Conformance

/-- The outcome of a check that found these rejections: the output if there are none, and else
a report of all of them or of the first one alone. -/
def outcomeOf {α : Type} (mode : Mode) (output : α) : List Rejection → Except Report α
  | [] => .ok output
  | first :: more => .error ⟨first, if mode = .collectAll then more else []⟩

/-- There is an output if nothing was found. -/
theorem outcomeOf_eq_ok_iff {α : Type} {mode : Mode} {output other : α} {found : List Rejection} :
    outcomeOf mode output found = .ok other ↔ found = [] ∧ output = other := by
  cases found <;> simp [outcomeOf]

/-- All that was found is reported, if all rejections are asked for. -/
theorem rejectionsOf_outcomeOf {α : Type} (output : α) (found : List Rejection) :
    rejectionsOf (outcomeOf .collectAll output found) = found := by
  cases found <;> rfl

/-- The containers inside a node that lie at the depth limit, each as a rejection. -/
def depthFaults (limit : Nat) (here : Path) (value : Json) : List Rejection :=
  (value.containersAt (limit - here.length)).map fun path =>
    ⟨here ++ path, .depthExceeded limit⟩

/-- Above the limit what lies too deep lies in the parts. -/
theorem depthFaults_parts {limit : Nat} {here : Path} (h : here.length < limit) (value : Json) :
    depthFaults limit here value =
      value.parts.flatMap fun part => depthFaults limit (here ++ [part.1]) part.2 := by
  obtain ⟨depth, hdepth⟩ : ∃ depth, limit - here.length = depth + 1 :=
    Nat.exists_eq_add_one.mpr (by omega)
  have hpart : ∀ segment : Segment, limit - (here ++ [segment]).length = depth := by
    intro segment
    rw [List.length_append, List.length_singleton]
    omega
  unfold depthFaults
  rw [hdepth, Json.containersAt_succ, List.map_flatMap]
  simp only [hpart, List.map_map, Function.comp_def, List.append_assoc, List.singleton_append]

/-- Every list and object is a container for the schema of all JSON values. -/
theorem Json.exists_container {value : Json} (h : value.isContainer = true) :
    ∃ children assemble, Container .json value children assemble := by
  cases value with
  | array items => exact ⟨_, _, .items rfl⟩
  | object entries => exact ⟨_, _, .entries rfl⟩
  | _ => cases h

/-- The values of a row of entries, named by their own keys, are the row. -/
theorem nameOutputs_entries (entries : List (String × Json)) :
    nameOutputs (entries.map Prod.fst) (entries.map fun entry => some entry.2) = entries := by
  induction entries with
  | nil => rfl
  | cons entry rest ih => rw [List.map_cons, List.map_cons, nameOutputs_cons_some, ih]

/-- Its children are its parts, and from these as outputs it is put together as it was. -/
theorem Container.json_parts {value : Json} {children : List Child}
    {assemble : List (Option Json) → Json} (h : Container .json value children assemble) :
    children = (value.parts.map fun part => .present part.1 .json part.2) ∧
      assemble (value.parts.map fun part => some part.2) = value := by
  cases h with
  | @items _ items he =>
    cases he
    have houtputs : (Json.array items).parts.map (fun part => some part.2) = items.map some := by
      rw [Json.parts, List.map_map]
      change items.zipIdx.map (some ∘ Prod.fst) = _
      rw [← List.map_map, List.zipIdx_map_fst]
    rw [Child.ofItems_eq, houtputs, Json.parts, List.map_map]
    refine ⟨rfl, ?_⟩
    simp
  | @entries _ entries he =>
    cases he
    rw [Json.parts, List.map_map, List.map_map]
    exact ⟨rfl, congrArg Json.object (nameOutputs_entries entries)⟩
  | fields hf => cases hf

/-- A row of parts that may be any JSON values is reported part by part. -/
theorem checkChildren_json (rules : Rules) (here : Position) (session : Session)
    (parts : List (Segment × Json))
    (h : ∀ part ∈ parts, ∀ session, check rules .json part.2 (here.child part.1) session =
      (outcomeOf rules.mode part.2 (depthFaults rules.maxDepth (here.path ++ [part.1]) part.2),
        session)) :
    checkChildren rules (parts.map fun part => .present part.1 .json part.2) here session =
      (outcomeOf rules.mode (parts.map fun part => some part.2)
        (parts.flatMap fun part => depthFaults rules.maxDepth (here.path ++ [part.1]) part.2),
        session) := by
  induction parts with
  | nil => exact checkChildren_nil rules here session
  | cons part rest ih =>
    obtain ⟨hfirst, hrest⟩ := List.forall_mem_cons.mp h
    rw [List.map_cons, checkChildren_cons, checkChild_present, hfirst session, List.flatMap_cons]
    generalize depthFaults rules.maxDepth (here.path ++ [part.1]) part.2 = found
    cases found with
    | nil =>
      dsimp only [outcomeOf]
      rw [ih hrest, List.nil_append, List.map_cons]
      generalize rest.flatMap _ = others
      cases others <;> rfl
    | cons first more =>
      dsimp only [outcomeOf]
      rw [ih hrest, List.cons_append]
      generalize rest.flatMap _ = others
      by_cases hm : rules.mode = .collectAll
      · simp only [hm, if_true]
        cases others with
        | nil => simp [outcomeOf]
        | cons => simp [outcomeOf, NonEmpty.append, NonEmpty.toList]
      · simp only [hm, if_false, outcomeOf]

/-- The schema for all JSON values gives a value as it is, unless there are containers in it at
the depth limit, and these are what it reports. The session stays as it is. -/
theorem check_json (rules : Rules) (value : Json) (here : Position)
    (hd : here.path.length ≤ rules.maxDepth) (session : Session) :
    check rules .json value here session =
      (outcomeOf rules.mode value (depthFaults rules.maxDepth here.path value), session) := by
  induction value using Json.parts_induction generalizing here session with
  | step value ih =>
    cases hcontainer : value.isContainer with
    | false =>
      have hview : View.of .json value = .plain := by
        cases value with
        | array | object => cases hcontainer
        | _ => rfl
      have hnone : value.containersAt (rules.maxDepth - here.path.length) = [] :=
        Json.containersAt_eq_nil_iff.mpr
          (Nat.le_trans (Json.nesting_le_zero_iff.mpr hcontainer) (Nat.zero_le _))
      rw [check_plain rules value here session rfl hview, depthFaults, hnone]
      rfl
    | true =>
      obtain ⟨children, assemble, hc⟩ := Json.exists_container hcontainer
      obtain ⟨hchildren, hassemble⟩ := hc.json_parts
      by_cases hlimit : rules.maxDepth ≤ here.path.length
      · have hzero : rules.maxDepth - here.path.length = 0 := Nat.sub_eq_zero_of_le hlimit
        rw [check_deep hc hlimit, depthFaults, hzero, Json.containersAt_zero, hcontainer, if_pos rfl,
          List.map_singleton, List.append_nil]
        simp [outcomeOf, Position.reject, NonEmpty.singleton]
      · have hrow := checkChildren_json rules here session value.parts fun part hp session =>
          ih part hp (here.child part.1) (by rw [here.length_child]; omega) session
        rw [check_container hc hlimit, hchildren, hrow, depthFaults_parts (by omega)]
        generalize value.parts.flatMap _ = found
        cases found with
        | nil =>
          dsimp only [outcomeOf]
          rw [hassemble]
        | cons first more => rfl

/-- From the root the schema for all JSON values reports the containers whose paths are as long
as the limit. -/
theorem Validator.validate_json (rules : Rules) (value : Json) (session : Session) :
    ((Validator.mk rules .json).validate value session).1 =
      outcomeOf rules.mode value ((value.containersAt rules.maxDepth).map fun path =>
        ⟨path, .depthExceeded rules.maxDepth⟩) := by
  rw [Validator.validate_fst, check_json rules value .root (Nat.zero_le _) session]
  rfl

/-- The schema for all JSON values accepts a value exactly if it nests within the limit, under
every policy and in either mode, and gives it as it is. When all rejections are reported, they
name the limit at each container whose path is as long, in document order; where keys are
distinct, that is once at every list and object to which such a path leads. The schema for
anything accepts every value as it is, however deep. -/
theorem json_passes_within_limit (rules : Rules) (value : Json) (session : Session) :
    ((∃ output, ((Validator.mk rules .json).validate value session).1 = .ok output) ↔
        value.nesting ≤ rules.maxDepth) ∧
      (∀ output, ((Validator.mk rules .json).validate value session).1 = .ok output →
        output = value) ∧
      (rules.mode = .collectAll →
        rejectionsOf ((Validator.mk rules .json).validate value session).1 =
          (value.containersAt rules.maxDepth).map fun path =>
            ⟨path, .depthExceeded rules.maxDepth⟩) ∧
      (value.DistinctKeys → (value.containersAt rules.maxDepth).Nodup ∧
        ∀ path : Path, path ∈ value.containersAt rules.maxDepth ↔ path.length = rules.maxDepth ∧
          ∃ node, path.node? value = some node ∧ node.isContainer = true) ∧
      ((Validator.mk rules .any).validate value session).1 = .ok value := by
  rw [Validator.validate_json]
  simp only [outcomeOf_eq_ok_iff, List.map_eq_nil_iff, Json.containersAt_eq_nil_iff]
  refine ⟨?_, ?_, ?_, ?_, ?_⟩
  · exact ⟨fun ⟨_, hn, _⟩ => hn, fun hn => ⟨value, hn, rfl⟩⟩
  · exact fun _ ⟨_, houtput⟩ => houtput.symm
  · intro hmode
    rw [hmode, rejectionsOf_outcomeOf]
  · intro hkeys
    exact ⟨Json.containersAt_nodup hkeys _, fun _ => Json.mem_containersAt_iff hkeys⟩
  · have hview : View.of .any value = .plain := by cases value <;> rfl
    rw [Validator.validate_fst, check_plain rules value .root session rfl hview]

/-- An object that holds an empty list, an empty object, null and a list that holds null. -/
def shallowTree : Json :=
  .object [("rows", .array []), ("names", .object []), ("note", .null), ("cells", .array [.null])]

/-- The keys of the object are distinct, and there are no others. -/
theorem shallowTree_distinctKeys : shallowTree.DistinctKeys := by
  refine .object (by decide) fun entry hentry => ?_
  simp only [List.mem_cons, List.not_mem_nil, or_false] at hentry
  rcases hentry with rfl | rfl | rfl | rfl
  · exact .array nofun
  · exact .object List.nodup_nil nofun
  · exact .null
  · exact .array fun item hitem => by rw [List.mem_singleton.mp hitem]; exact .null

/-- Under the limit one each container in the object is reported once, the empty ones, too, and
under the limit two the object is given as it is. -/
theorem shallowTree_reported (session : Session) :
    rejectionsOf ((Validator.mk ⟨.strict, .collectAll, 1⟩ .json).validate shallowTree session).1 =
        [⟨[.key "rows"], .depthExceeded 1⟩, ⟨[.key "names"], .depthExceeded 1⟩,
          ⟨[.key "cells"], .depthExceeded 1⟩] ∧
      (shallowTree.containersAt 1).Nodup ∧
      ((Validator.mk ⟨.strict, .collectAll, 2⟩ .json).validate shallowTree session).1 =
        .ok shallowTree := by
  obtain ⟨_, _, hreport, hpaths, _⟩ :=
    json_passes_within_limit ⟨.strict, .collectAll, 1⟩ shallowTree session
  obtain ⟨haccept, hsame, _, _, _⟩ :=
    json_passes_within_limit ⟨.strict, .collectAll, 2⟩ shallowTree session
  obtain ⟨output, houtput⟩ := haccept.mpr (by decide)
  refine ⟨?_, (hpaths shallowTree_distinctKeys).1, ?_⟩
  · rw [hreport rfl]
    simp [shallowTree, Json.containersAt_succ, Json.containersAt_zero, Json.parts,
      Json.isContainer]
  · rw [houtput, hsame output houtput]

end Conformance
