import Mathlib.Data.List.Nodup
import Conformance.Proofs.Keys

/-!
# Nodes in document order

The nodes of a document are listed with their paths, each container before what is in it and
its parts in their own order. Where keys are distinct, each path is listed once, and with the
node that it leads to. The containers at paths of one length are a part of this list, and
there are none exactly if the document nests no deeper than that.
-/

namespace Conformance.Json

/-- Whether the value is a list or an object. -/
def isContainer : Json → Bool
  | .array _ | .object _ => true
  | _ => false

/-- The parts of a container in their order, each with the segment that leads to it. -/
def parts : Json → List (Segment × Json)
  | .array items => items.zipIdx.map fun (item, position) => (.index position, item)
  | .object entries => entries.map fun (key, value) => (.key key, value)
  | _ => []

/-- A row of values nests within a bound if each of them does. -/
theorem nestingItems_le_iff {items : List Json} {depth : Nat} :
    nestingItems items ≤ depth ↔ ∀ item ∈ items, item.nesting ≤ depth := by
  induction items with
  | nil => simp [nestingItems]
  | cons item rest ih => simp only [nestingItems, Nat.max_le, ih, List.forall_mem_cons]

/-- A row of entries nests within a bound if each of its values does. -/
theorem nestingEntries_le_iff {entries : List (String × Json)} {depth : Nat} :
    nestingEntries entries ≤ depth ↔ ∀ entry ∈ entries, entry.2.nesting ≤ depth := by
  induction entries with
  | nil => simp [nestingEntries]
  | cons entry rest ih => simp only [nestingEntries, Nat.max_le, ih, List.forall_mem_cons]

/-- Only what is no container does not nest. -/
theorem nesting_le_zero_iff {value : Json} : value.nesting ≤ 0 ↔ value.isContainer = false := by
  cases value <;> simp [nesting, isContainer]

/-- A value nests one level deeper than its parts. -/
theorem nesting_le_succ_iff {value : Json} {depth : Nat} :
    value.nesting ≤ depth + 1 ↔ ∀ part ∈ value.parts, part.2.nesting ≤ depth := by
  cases value with
  | array items =>
    rw [nesting, Nat.add_le_add_iff_right, nestingItems_le_iff, parts, List.forall_mem_map,
      ← List.forall_mem_map (f := Prod.fst) (P := fun item : Json => item.nesting ≤ depth),
      List.zipIdx_map_fst]
  | object entries =>
    rw [nesting, Nat.add_le_add_iff_right, nestingEntries_le_iff, parts, List.forall_mem_map]
  | _ => simp [nesting, parts]

/-- A part nests less deeply than the whole. -/
theorem nesting_lt_of_mem_parts {value : Json} {part : Segment × Json} (h : part ∈ value.parts) :
    part.2.nesting < value.nesting := by
  cases hnesting : value.nesting with
  | zero =>
    have hscalar := nesting_le_zero_iff.mp (Nat.le_of_eq hnesting)
    cases value with
    | array | object => cases hscalar
    | _ => cases h
  | succ depth => exact Nat.lt_succ_of_le (nesting_le_succ_iff.mp (Nat.le_of_eq hnesting) part h)

/-- What holds of a value if it holds of its parts, holds of every value. -/
theorem parts_induction {motive : Json → Prop}
    (step : ∀ value, (∀ part ∈ value.parts, motive part.2) → motive value) (value : Json) :
    motive value :=
  step value fun part _ => parts_induction step part.2
termination_by value.nesting
decreasing_by exact nesting_lt_of_mem_parts ‹_›

/-- The nodes of a document with their paths, in document order. -/
def nodes (value : Json) : List (Path × Json) :=
  ([], value) :: value.parts.attach.flatMap fun part =>
    part.1.2.nodes.map fun node => (part.1.1 :: node.1, node.2)
termination_by value.nesting
decreasing_by exact nesting_lt_of_mem_parts part.2

/-- First comes the document itself, and then the nodes of its parts, part by part. -/
theorem nodes_eq (value : Json) :
    value.nodes = ([], value) :: value.parts.flatMap fun part =>
      part.2.nodes.map fun node => (part.1 :: node.1, node.2) := by
  rw [nodes, List.flatMap_subtype (g := fun part : Segment × Json =>
    part.2.nodes.map fun node => (part.1 :: node.1, node.2)) fun _ _ => rfl, List.unattach_attach]

/-- The paths of this length at which the document has containers, in document order. -/
def containersAt (depth : Nat) (value : Json) : List Path :=
  (value.nodes.filter fun node => node.2.isContainer && node.1.length == depth).map Prod.fst

/-- At the root there is a container if the document is one. -/
theorem containersAt_zero (value : Json) :
    value.containersAt 0 = if value.isContainer then [[]] else [] := by
  have hbelow : ∀ part : Segment × Json,
      (part.2.nodes.map fun node => (part.1 :: node.1, node.2)).filter
        (fun node => node.2.isContainer && node.1.length == 0) = [] := by
    intro part
    simp [List.filter_map]
  unfold containersAt
  rw [nodes_eq, List.filter_cons, List.filter_flatMap]
  simp only [hbelow]
  cases value.isContainer <;> simp

/-- Further down the containers are those of the parts, part by part. -/
theorem containersAt_succ (depth : Nat) (value : Json) :
    value.containersAt (depth + 1) = value.parts.flatMap fun part =>
      (part.2.containersAt depth).map (part.1 :: ·) := by
  unfold containersAt
  rw [nodes_eq, List.filter_cons, List.filter_flatMap]
  simp [List.filter_map, List.map_flatMap, Function.comp_def]

/-- No container lies so far down exactly if the document nests no deeper. -/
theorem containersAt_eq_nil_iff {value : Json} {depth : Nat} :
    value.containersAt depth = [] ↔ value.nesting ≤ depth := by
  induction depth generalizing value with
  | zero =>
    rw [containersAt_zero, nesting_le_zero_iff]
    cases value.isContainer <;> simp
  | succ depth ih =>
    simp only [containersAt_succ, nesting_le_succ_iff, List.flatMap_eq_nil_iff, List.map_eq_nil_iff,
      ih]

section Paths

variable {value : Json}

/-- Where keys are distinct, no two parts of a container are under one segment. -/
theorem parts_nodup (h : value.DistinctKeys) : (value.parts.map Prod.fst).Nodup := by
  cases value with
  | array items =>
    have hpositions : (items.zipIdx.map Prod.snd).Nodup := by
      rw [List.zipIdx_map_snd]
      exact List.nodup_range'
    have hsegments := hpositions.map (f := Segment.index) fun _ _ heq => Segment.index.inj heq
    rw [List.map_map] at hsegments
    rwa [parts, List.map_map]
  | object entries =>
    have hsegments := h.keys.map (f := Segment.key) fun _ _ heq => Segment.key.inj heq
    rw [List.map_map] at hsegments
    rwa [parts, List.map_map]
  | _ => exact List.nodup_nil

/-- The parts of a value with distinct keys have distinct keys. -/
theorem DistinctKeys.part (h : value.DistinctKeys) {part : Segment × Json}
    (hp : part ∈ value.parts) : part.2.DistinctKeys := by
  cases value with
  | array items =>
    obtain ⟨⟨item, position⟩, hmem, rfl⟩ := List.mem_map.mp hp
    exact h.item (List.fst_mem_of_mem_zipIdx hmem)
  | object entries =>
    obtain ⟨entry, hmem, rfl⟩ := List.mem_map.mp hp
    exact h.entry hmem
  | _ => cases hp

/-- A path leads on through the part that is under its first segment. -/
theorem node?_cons_iff (h : value.DistinctKeys) {segment : Segment} {rest : Path} {node : Json} :
    Path.node? (segment :: rest) value = some node ↔
      ∃ part, (segment, part) ∈ value.parts ∧ rest.node? part = some node := by
  cases value with
  | array items =>
    cases segment with
    | key name => simp [Path.node?, parts]
    | index position =>
      simp [Path.node?, parts, Option.bind_eq_some_iff, List.mk_mem_zipIdx_iff_getElem?]
  | object entries =>
    cases segment with
    | key name =>
      have hlookup : ∀ part, Entries.lookup name entries = some part ↔ (name, part) ∈ entries :=
        fun part => ⟨Entries.mem_of_lookup, Entries.lookup_of_mem h.keys⟩
      simp [Path.node?, parts, Option.bind_eq_some_iff, hlookup]
    | index position => simp [Path.node?, parts]
  | _ => simp [Path.node?, parts]

/-- The nodes are what paths lead to. -/
theorem mem_nodes_iff (h : value.DistinctKeys) {path : Path} {node : Json} :
    (path, node) ∈ value.nodes ↔ path.node? value = some node := by
  induction path generalizing value with
  | nil =>
    rw [nodes_eq, Path.node?]
    simp [eq_comm]
  | cons segment rest ih =>
    rw [nodes_eq, node?_cons_iff h]
    constructor
    · intro hmem
      rcases List.mem_cons.mp hmem with heq | hmem
      · cases heq
      obtain ⟨⟨first, part⟩, hpart, hmem⟩ := List.mem_flatMap.mp hmem
      obtain ⟨⟨path, found⟩, hnode, heq⟩ := List.mem_map.mp hmem
      cases heq
      exact ⟨part, hpart, (ih (h.part hpart)).mp hnode⟩
    · rintro ⟨part, hpart, hnode⟩
      refine List.mem_cons_of_mem _ (List.mem_flatMap.mpr ⟨(segment, part), hpart, ?_⟩)
      exact List.mem_map.mpr ⟨(rest, node), (ih (h.part hpart)).mpr hnode, rfl⟩

/-- No path is listed twice. -/
theorem nodes_nodup (h : value.DistinctKeys) : (value.nodes.map Prod.fst).Nodup := by
  induction value using parts_induction with
  | step value ih =>
    have hrow : ∀ part : Segment × Json,
        (part.2.nodes.map fun node => (part.1 :: node.1, node.2)).map Prod.fst =
          (part.2.nodes.map Prod.fst).map (part.1 :: ·) := by
      intro part
      rw [List.map_map, List.map_map]
      rfl
    rw [nodes_eq, List.map_cons, List.map_flatMap, List.nodup_cons, List.nodup_flatMap]
    simp only [hrow]
    refine ⟨?_, fun part hp => ?_, ?_⟩
    · simp
    · exact (ih part hp (h.part hp)).map fun _ _ heq => (List.cons.inj heq).2
    · -- paths through different parts differ in their first segment
      refine (List.pairwise_map.mp (parts_nodup h)).imp fun {first second} hne path hf hs => ?_
      obtain ⟨_, _, rfl⟩ := List.mem_map.mp hf
      obtain ⟨_, _, heq⟩ := List.mem_map.mp hs
      exact hne (List.cons.inj heq).1.symm

/-- No container is listed twice. -/
theorem containersAt_nodup (h : value.DistinctKeys) (depth : Nat) :
    (value.containersAt depth).Nodup :=
  (nodes_nodup h).sublist (List.filter_sublist.map _)

/-- The containers that are listed are all those to which a path of this length leads. -/
theorem mem_containersAt_iff (h : value.DistinctKeys) {depth : Nat} {path : Path} :
    path ∈ value.containersAt depth ↔
      path.length = depth ∧ ∃ node, path.node? value = some node ∧ node.isContainer = true := by
  unfold containersAt
  simp only [List.mem_map, List.mem_filter, Bool.and_eq_true, beq_iff_eq]
  constructor
  · rintro ⟨⟨found, node⟩, ⟨hmem, hcontainer, hlength⟩, rfl⟩
    exact ⟨hlength, node, (mem_nodes_iff h).mp hmem, hcontainer⟩
  · rintro ⟨hlength, node, hnode, hcontainer⟩
    exact ⟨(path, node), ⟨(mem_nodes_iff h).mpr hnode, hcontainer, hlength⟩, rfl⟩

end Paths

end Conformance.Json
