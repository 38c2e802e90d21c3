import Conformance.Proofs.Composition

/-!
# Checking an output again

An output is pruned, coerced and merged. Checked again it gives equal data, unless a
union turns to another member: an earlier member may have rejected what was pruned
since. Inside an intersection a schema does not see its own output again, but the
part of the output that stands in the same place: the outputs of other members may
extend its own, with keys of the value. So the induction is over the places that the
check comes to and over what the output has there, and it goes through wherever the
unions are settled on that.
-/

namespace Conformance

/-- The declared fields have distinct names wherever they occur in the graph of a schema. -/
def Schema.DistinctFields (targets : Targets) (root : Schema) : Prop :=
  ∀ schema fields, Reaches targets root schema → schema.fields? = some fields →
    (fields.map Field.name).Nodup

/-- A value has all data of an output, and no keys but those of the value that the output
came from. -/
def Json.Between (value output u : Json) : Prop :=
  u.Extends output ∧ ∀ key, u.HasKey key → value.HasKey key

/-- What the check of a document comes to on the way to its output: a schema, the value
that it is checked against, the part of the output in the same place, and where this
happens. -/
inductive Grounds.Meets (grounds : Grounds) (root : Schema) (document result : Json) :
    Schema → Json → Json → Nat → List CellId → Prop
  /-- The check starts with the whole document. -/
  | start : Meets grounds root document result root document result 0 []
  /-- What is not null is checked against the inner schema. -/
  | inner {inner : Schema} {value u : Json} {depth : Nat} {entered : List CellId}
    (h : Meets grounds root document result (.nullable inner) value u depth entered)
    (hn : ¬value.isNull) : Meets grounds root document result inner value u depth entered
  /-- A union gives what its first member does that accepts. -/
  | chosen {before after : List Schema} {member : Schema} {value u output : Json} {depth : Nat}
    {entered : List CellId}
    (h : Meets grounds root document result (.union (before ++ member :: after)) value u depth
      entered)
    (hb : ∀ earlier ∈ before, grounds.accept earlier value depth entered = none)
    (ha : grounds.accept member value depth entered = some output) :
    Meets grounds root document result member value u depth entered
  /-- Every member of an intersection has its turn. -/
  | every {members : List Schema} {member : Schema} {value u : Json} {depth : Nat}
    {entered : List CellId}
    (h : Meets grounds root document result (.intersection members) value u depth entered)
    (hm : member ∈ members) : Meets grounds root document result member value u depth entered
  /-- A reference leads to its target. -/
  | target {r : Reference} {target : Schema} {value u : Json} {depth : Nat}
    {entered : List CellId}
    (h : Meets grounds root document result (.reference r) value u depth entered)
    (ht : grounds.targets r.cell = some target) :
    Meets grounds root document result target value u depth (r.cell :: entered)
  /-- A container leads to its children. -/
  | child {schema inner : Schema} {value item u part : Json} {depth : Nat}
    {entered : List CellId} {children : List Child} {assemble : List (Option Json) → Json}
    {segment : Segment} (h : Meets grounds root document result schema value u depth entered)
    (hc : Container schema value children assemble)
    (hm : Child.present segment inner item ∈ children)
    (hp : Path.node? [segment] u = some part) :
    Meets grounds root document result inner item part (depth + 1) []

/-- A check comes to schemas of the graph only. -/
theorem Grounds.Meets.reaches {grounds : Grounds} {root schema : Schema}
    {document result value u : Json} {depth : Nat} {entered : List CellId}
    (h : grounds.Meets root document result schema value u depth entered) :
    Schema.Reaches grounds.targets root schema := by
  induction h with
  | start => exact .root
  | inner _ _ ih => exact ih.part (List.mem_singleton_self _)
  | @chosen before after member _ _ _ _ _ _ _ _ ih =>
    have hm : member ∈ before ++ member :: after := by simp
    exact ih.part hm
  | every _ hm ih => exact ih.part hm
  | target _ ht ih => exact ih.target ht
  | child _ hc hm _ ih => exact ih.child hc hm

/-- No union turns back that the check of a document comes to: where a member accepts what
the earlier ones reject, an earlier one that accepts what the output has in this place gives
the same data as the member did. What the output has there lies between what the member
gave and the value. -/
def Grounds.Settled (grounds : Grounds) (root : Schema) (document result : Json) : Prop :=
  ∀ before member after value u depth entered output,
    grounds.Meets root document result (.union (before ++ member :: after)) value u depth entered →
    (∀ earlier ∈ before, grounds.accept earlier value depth entered = none) →
    grounds.accept member value depth entered = some output →
    u.DistinctKeys → value.Between output u → ∀ earlier ∈ before, ∀ other,
      grounds.accept earlier u depth entered = some other → other.Same output

namespace Json

variable {value output u : Json}

/-- Equal data lie between an output and the value that it trims. -/
theorem Same.between (hu : u.DistinctKeys) (ho : output.DistinctKeys)
    (ht : value.Trims output) (h : u.Same output) : value.Between output u := by
  refine ⟨h.extends hu ho, fun key hk => ?_⟩
  cases u with
  | object more =>
    cases output with
    | object kept =>
      obtain ⟨y, hy⟩ := Option.isSome_iff_exists.mp hk
      obtain ⟨x, hx, _⟩ := h.lookup hu ho hy
      exact ht.1 key (Option.isSome_iff_exists.mpr ⟨x, hx⟩)
    | _ => cases h
  | _ => exact hk.elim

/-- Nothing lies between an output and the value but equal data, if no key was lost. -/
theorem Between.same (hu : u.DistinctKeys) (ho : output.DistinctKeys)
    (hkeys : ∀ key, value.HasKey key → output.HasKey key) (h : value.Between output u) :
    u.Same output := by
  obtain ⟨hext, hsub⟩ := h
  cases output with
  | object kept =>
    obtain ⟨more, rfl⟩ := hext.exists_object
    rw [same_object hu.keys ho.keys]
    intro key
    cases hl : Entries.lookup key kept with
    | some x =>
      obtain ⟨y, hy, hsame⟩ := hext key x hl
      rw [hy]
      exact .some hsame
    | none =>
      cases hm : Entries.lookup key more with
      | none => exact .none
      | some y =>
        have hk : (Json.object more).HasKey key := Option.isSome_iff_exists.mpr ⟨y, hm⟩
        have := hkeys key (hsub key hk)
        rw [HasKey, hl] at this
        cases this
  | _ => exact hext.same_of_not_object fun kept h => by cases h

/-- What lies between null and null is null, and nothing else is. -/
theorem Between.isNull (ht : value.Trims output) (h : value.Between output u) :
    u.isNull = value.isNull := by
  rw [← ht.2]
  cases output with
  | object kept =>
    obtain ⟨more, rfl⟩ := h.1.exists_object
    rfl
  | _ =>
    have hsame := h.1.same_of_not_object fun kept h => by cases h
    cases u <;> first | rfl | cases hsame

end Json

/-- What is said of an accepted value with distinct keys: so has the output. -/
def keysApart (targets : Targets) (root : Schema) : Grounds.Motive :=
  fun schema value _ _ output => Schema.Reaches targets root schema → value.DistinctKeys →
    output.DistinctKeys

/-- A scalar holds no object. -/
theorem Json.DistinctKeys.of_isScalar {value : Json} (h : value.isScalar) :
    value.DistinctKeys := by
  cases value with
  | bool b => exact .bool b
  | number n => exact .number n
  | string s => exact .string s
  | _ => cases h

/-- A policy under which every leaf takes values with distinct keys to values with distinct
keys. -/
def Policy.KeepsKeys (policy : Policy) : Prop :=
  ∀ leaf value output, policy.check leaf value = .ok output → value.DistinctKeys →
    output.DistinctKeys

/-- Scalars hold no object whose keys could be lost. -/
theorem Policy.Flat.keepsKeys {policy : Policy} (h : policy.Flat) : policy.KeepsKeys :=
  fun leaf value output hcheck _ => .of_isScalar (h leaf value output hcheck).2

theorem keysApart_inductive {grounds : Grounds} {root : Schema}
    (hpolicy : grounds.policy.KeepsKeys) (hfields : root.DistinctFields grounds.targets) :
    grounds.Inductive (keysApart grounds.targets root) where
  leaf leaf value depth entered output h _ hd := hpolicy leaf value output h hd
  null inner depth entered _ _ := .null
  nullable inner value depth entered output _ _ ih hr hd :=
    ih (hr.part (List.mem_singleton_self _)) hd
  union before member after value depth entered output _ _ ih hr hd := by
    have hm : member ∈ before ++ member :: after := by simp
    exact ih (hr.part hm) hd
  intersection members outputs all value depth entered hrow hall hr hd := by
    cases all with
    | none => exact hd
    | some m =>
      refine mergeAll_forall (fun a b m => mergeOutputs_distinctKeys) (fun a ha => by cases ha) ?_
        hall m rfl
      intro w hw
      obtain ⟨member, hm, _, ih⟩ := exists_of_forall₂_of_mem hrow.flip hw
      exact ih (hr.part hm) hd
  reference r target value depth entered output _ ht _ ih hr hd := ih (hr.target ht) hd
  any value depth entered _ hd := hd
  scalar value depth entered _ _ hd := hd
  container schema value depth entered children assemble outputs hc _ hrow hr hd := by
    have hall : ∀ w, some w ∈ outputs → w.DistinctKeys := by
      intro w hw
      obtain ⟨child, hm, hout⟩ := exists_of_forall₂_of_mem hrow.flip hw
      cases hout with
      | present _ ih => exact ih (hr.child hc hm) (hc.within hd hm).2
    cases hc with
    | items =>
      refine .array fun item hi => hall item ?_
      simpa using hi
    | @entries entry entries _ =>
      refine .object ((nameOutputs_keys_sublist _ _).nodup hd.keys) fun e he => ?_
      exact hall e.2 (mem_of_mem_nameOutputs he)
    | fields hf =>
      refine .object ((nameOutputs_keys_sublist _ _).nodup (hfields _ _ hr hf)) fun e he => ?_
      exact hall e.2 (mem_of_mem_nameOutputs he)

/-- Every output has distinct keys if the value has and the policy keeps them so. -/
theorem Grounds.accept_keepsKeys {grounds : Grounds} {root schema : Schema}
    (hpolicy : grounds.policy.KeepsKeys) (hfields : root.DistinctFields grounds.targets)
    {value output : Json} {depth : Nat} {entered : List CellId}
    (hr : Schema.Reaches grounds.targets root schema) (hd : value.DistinctKeys)
    (h : grounds.accept schema value depth entered = some output) : output.DistinctKeys :=
  (keysApart_inductive hpolicy hfields).holds schema value depth entered output h hr hd

/-- Every output has distinct keys if the value has. -/
theorem Grounds.accept_distinctKeys {grounds : Grounds} {root schema : Schema}
    (hflat : grounds.policy.Flat) (hfields : root.DistinctFields grounds.targets)
    {value output : Json} {depth : Nat} {entered : List CellId}
    (hr : Schema.Reaches grounds.targets root schema) (hd : value.DistinctKeys)
    (h : grounds.accept schema value depth entered = some output) : output.DistinctKeys :=
  Grounds.accept_keepsKeys hflat.keepsKeys hfields hr hd h

/-- A row of outputs is merged into nothing only if there is none. -/
theorem mergeAll_eq_none {merged : Option Json} {outputs : List Json}
    (h : mergeAll merged outputs = some none) : merged = none ∧ outputs = [] := by
  induction outputs generalizing merged with
  | nil => exact ⟨Option.some.inj h, rfl⟩
  | cons output rest ih =>
    rw [mergeAll] at h
    split at h
    · cases (ih h).1
    · cases h

/-- What lies between the value and a merged output lies between it and every output that
was merged. -/
theorem Json.Between.of_mergeAll {value m u w : Json} {outputs : List Json}
    (hu : u.DistinctKeys) (hout : ∀ w ∈ outputs, w.DistinctKeys)
    (h : mergeAll none outputs = some (some m)) (hb : value.Between m u) (hw : w ∈ outputs) :
    value.Between w u := by
  obtain ⟨hm, _, hext⟩ := mergeAll_extends (fun a ha => by cases ha) hout h rfl
  exact ⟨hb.1.trans hu hm (hout w hw) (hext w hw), hb.2⟩

/-- A union gives what is wanted if a member does and every earlier one does so or
rejects. -/
theorem Grounds.acceptFirst_of_member {grounds : Grounds} {value : Json} {depth : Nat}
    {entered : List CellId} {P : Json → Prop} {before after : List Schema} {member : Schema}
    (hbefore : ∀ earlier ∈ before, ∀ other,
      grounds.accept earlier value depth entered = some other → P other)
    (hmember : ∃ output, grounds.accept member value depth entered = some output ∧ P output) :
    ∃ output, grounds.acceptFirst (before ++ member :: after) value depth entered = some output ∧
      P output := by
  induction before with
  | nil =>
    obtain ⟨output, ho, hp⟩ := hmember
    refine ⟨output, ?_, hp⟩
    rw [List.nil_append, acceptFirst, ho]
  | cons earlier rest ih =>
    obtain ⟨hearlier, hrest⟩ := List.forall_mem_cons.mp hbefore
    rw [List.cons_append, acceptFirst]
    cases he : grounds.accept earlier value depth entered with
    | some other => exact ⟨other, rfl, hearlier other he⟩
    | none => exact ih hrest

/-- What is said of an accepted value: what the output of the document has in its place is
accepted too, if it lies between the output and the value, and gives the output again. -/
def repeating (grounds : Grounds) (root : Schema) (document result : Json) : Grounds.Motive :=
  fun schema value depth entered output => ∀ u,
    grounds.Meets root document result schema value u depth entered → value.DistinctKeys →
    u.DistinctKeys → value.Between output u →
      ∃ again, grounds.accept schema u depth entered = some again ∧ again.Same output

section Steps

variable {grounds : Grounds} {root : Schema} {document result : Json}

/-- The items of a list are accepted again. -/
theorem repeating_items {schema element : Schema} {items : List Json} {depth : Nat}
    {entered : List CellId} {outputs : List (Option Json)} (hflat : grounds.policy.Flat)
    (hfields : root.DistinctFields grounds.targets)
    (he : schema.itemSchema? = some element) (hdepth : depth < grounds.maxDepth)
    (hrow : List.Forall₂ (Grounds.ChildOutput grounds (repeating grounds root document result) depth)
      (Child.ofItems element 0 items) outputs) :
    repeating grounds root document result schema (.array items) depth entered
      (.array (outputs.filterMap fun output => output)) := by
  intro u hmeets hd hu hb
  obtain ⟨outs, rfl, houts⟩ := Grounds.items_outputs hrow
  have houtput : (outs.map some).filterMap (fun output => output) = outs := by simp
  rw [houtput] at hb ⊢
  have hsame := hb.1.same_of_not_object fun kept h => by cases h
  obtain ⟨others, rfl⟩ := hsame.exists_array
  have hc : Container schema (.array items) (Child.ofItems element 0 items) _ := .items he
  -- item by item, what is accepted now lies between the output and the value
  have hitems : List.Forall₂ (fun other w => ∃ again,
      grounds.accept element other (depth + 1) [] = some again ∧ again.Same w) others outs := by
    refine forall₂_imp_of_getElem? (Json.same_array.mp hsame) fun i other w ho hw hsw => ?_
    obtain ⟨item, hi, haccept, ih⟩ := exists_of_forall₂_of_getElem? houts.flip hw
    have hpart : Path.node? [.index (0 + i)] (.array others) = some other := by
      simp [Path.node?, ho]
    have hmi := hmeets.child hc (Child.mem_ofItems_of_getElem? element hi 0) hpart
    have hdi := hd.item (List.mem_of_getElem? hi)
    have hdo := hu.item (List.mem_of_getElem? ho)
    have hdw := Grounds.accept_distinctKeys hflat hfields hmi.reaches hdi haccept
    have hbetween := hsw.between hdo hdw (Grounds.accept_trims hflat haccept)
    exact ih other hmi hdi hdo hbetween
  obtain ⟨agains, haccept, hagain⟩ := exists_between_of_forall₂ hitems
  exact ⟨.array agains, Grounds.accept_items he hdepth haccept, Json.same_array.mpr hagain⟩

/-- The entries of a record are accepted again. -/
theorem repeating_entries {schema entry : Schema} {entries : List (String × Json)} {depth : Nat}
    {entered : List CellId} {outputs : List (Option Json)} (hflat : grounds.policy.Flat)
    (hfields : root.DistinctFields grounds.targets)
    (he : schema.entrySchema? = some entry) (hdepth : depth < grounds.maxDepth)
    (hrow : List.Forall₂ (Grounds.ChildOutput grounds (repeating grounds root document result) depth)
      (Child.ofEntries entry entries) outputs) :
    repeating grounds root document result schema (.object entries) depth entered
      (.object (nameOutputs (entries.map Prod.fst) outputs)) := by
  intro u hmeets hd hu hb
  obtain ⟨outs, rfl, houts⟩ := Grounds.entries_outputs hrow
  have hc : Container schema (.object entries) (Child.ofEntries entry entries) _ := .entries he
  have hfound := lookup_nameOutputs_entries houts
  have hkept : (nameOutputs (entries.map Prod.fst) (outs.map some)).map Prod.fst |>.Nodup :=
    (nameOutputs_keys_sublist _ _).nodup hd.keys
  obtain ⟨more, rfl⟩ := hb.1.exists_object
  -- under each key of what is checked now there is an output, and a value that it came from
  have hentries : ∀ e ∈ more, ∃ again, grounds.accept entry e.2 (depth + 1) [] = some again ∧
      ∃ w, Entries.lookup e.1 (nameOutputs (entries.map Prod.fst) (outs.map some)) = some w ∧
        again.Same w := by
    intro e hm
    have hl := Entries.lookup_of_mem hu.keys hm
    have hkey : (Entries.lookup e.1 entries).isSome :=
      hb.2 e.1 (Option.isSome_iff_exists.mpr ⟨_, hl⟩)
    obtain ⟨value, hvalue⟩ := Option.isSome_iff_exists.mp hkey
    have hrel := hfound e.1
    rw [hvalue] at hrel
    obtain ⟨w, hw, haccept, ih⟩ := rel_some_left hrel
    obtain ⟨y, hy, hsame⟩ := hb.1 e.1 w hw
    cases hl.symm.trans hy
    have hpart : Path.node? [.key e.1] (.object more) = some e.2 := by simp [Path.node?, hl]
    have hmv := hmeets.child hc (List.mem_map_of_mem (Entries.mem_of_lookup hvalue)) hpart
    have hdv := hd.lookup hvalue
    have hdw := Grounds.accept_distinctKeys hflat hfields hmv.reaches hdv haccept
    have hbetween := hsame.between (hu.entry hm) hdw (Grounds.accept_trims hflat haccept)
    obtain ⟨again, ha, hsa⟩ := ih e.2 hmv hdv (hu.entry hm) hbetween
    exact ⟨again, ha, w, hw, hsa⟩
  obtain ⟨agains, hagains⟩ := exists_forall₂_of_forall_mem hentries
  refine ⟨_, Grounds.accept_entries he hdepth (hagains.imp fun _ _ h => h.1), ?_⟩
  rw [Json.same_object ((nameOutputs_keys_sublist _ _).nodup hu.keys) hkept]
  intro key
  have hnow := lookup_nameOutputs_entries hagains key
  cases hl : Entries.lookup key more with
  | some y =>
    rw [hl] at hnow
    obtain ⟨again, ha, _, w, hw, hsame⟩ := rel_some_left hnow
    rw [ha, hw]
    exact .some hsame
  | none =>
    rw [hl] at hnow
    rw [rel_none_left hnow]
    cases hw : Entries.lookup key (nameOutputs (entries.map Prod.fst) (outs.map some)) with
    | none => exact .none
    | some w =>
      obtain ⟨y, hy, _⟩ := hb.1 key w hw
      rw [hl] at hy
      cases hy

/-- The declared fields of an object are accepted again. -/
theorem repeating_fields {schema : Schema} {fields : List (Field Schema)}
    {entries : List (String × Json)} {depth : Nat} {entered : List CellId}
    {outputs : List (Option Json)} (hflat : grounds.policy.Flat)
    (hfields : root.DistinctFields grounds.targets)
    (hf : schema.fields? = some fields) (hdepth : depth < grounds.maxDepth)
    (hrow : List.Forall₂ (Grounds.ChildOutput grounds (repeating grounds root document result) depth)
      (fields.map (Child.ofField entries)) outputs) :
    repeating grounds root document result schema (.object entries) depth entered
      (.object (nameOutputs (fields.map Field.name) outputs)) := by
  intro u hmeets hd hu hb
  have hc : Container schema (.object entries) (fields.map (Child.ofField entries)) _ := .fields hf
  have hnames := hfields schema fields hmeets.reaches hf
  obtain ⟨more, rfl⟩ := hb.1.exists_object
  have hrow := List.forall₂_map_left_iff.mp hrow
  have hlookup := lookup_nameOutputs hnames (by simpa using hrow.length_eq)
  rw [List.forall₂_map_left_iff] at hlookup
  -- a field that was present still is, with the data of its output, and no other is
  have hfield : List.Forall₂ (fun field output => ∃ again,
      grounds.acceptChild (Child.ofField more field) depth = some again ∧
        Option.Rel Json.Same again output) fields outputs := by
    refine forall₂_imp_of_mem (List.Forall₂.mp (fun _ _ => And.intro) hrow hlookup) ?_
    rintro field hm output _ ⟨hchild, houtput⟩
    have hmem := List.mem_map_of_mem (f := Child.ofField entries) hm
    cases hl : Entries.lookup field.name entries with
    | some value =>
      rw [Child.ofField, hl] at hchild hmem
      cases hchild with
      | @present _ _ _ w haccept ih =>
        obtain ⟨y, hy, hsame⟩ := hb.1 field.name w houtput
        have hdv := hd.lookup hl
        have hpart : Path.node? [.key field.name] (.object more) = some y := by
          simp [Path.node?, hy]
        have hmv := hmeets.child hc hmem hpart
        have hdw := Grounds.accept_distinctKeys hflat hfields hmv.reaches hdv haccept
        have hbetween := hsame.between (hu.lookup hy) hdw (Grounds.accept_trims hflat haccept)
        obtain ⟨again, ha, hsa⟩ := ih y hmv hdv (hu.lookup hy) hbetween
        refine ⟨some again, ?_, .some hsa⟩
        rw [Child.ofField, hy, Grounds.acceptChild, ha, Option.map_some]
    | none =>
      rw [Child.ofField, hl] at hchild
      cases hchild with
      | absent habsent =>
        have hmissing : Entries.lookup field.name more = none := by
          cases hy : Entries.lookup field.name more with
          | none => rfl
          | some y =>
            have hk := hb.2 field.name (Option.isSome_iff_exists.mpr ⟨y, hy⟩)
            rw [Json.HasKey, hl] at hk
            cases hk
        refine ⟨none, ?_, .none⟩
        rw [Child.ofField, hmissing, Grounds.acceptChild, if_pos habsent]
  obtain ⟨agains, haccept, hagain⟩ := exists_between_of_forall₂ hfield
  refine ⟨_, Grounds.accept_fields hf hdepth haccept, ?_⟩
  rw [Json.same_object ((nameOutputs_keys_sublist _ _).nodup hnames)
    ((nameOutputs_keys_sublist _ _).nodup hnames)]
  exact rel_lookup_nameOutputs hagain

/-- The members of an intersection are accepted again, and their outputs merged. -/
theorem repeating_intersection {members : List Schema} {outputs : List Json} {all : Option Json}
    {value : Json} {depth : Nat} {entered : List CellId} (hflat : grounds.policy.Flat)
    (hfields : root.DistinctFields grounds.targets)
    (hrow : List.Forall₂ (fun member output =>
      grounds.accept member value depth entered = some output ∧
        repeating grounds root document result member value depth entered output) members outputs)
    (hall : mergeAll none outputs = some all) :
    repeating grounds root document result (.intersection members) value depth entered (all.getD value) := by
  intro u hmeets hd hu hb
  rw [Grounds.accept]
  cases all with
  | none =>
    obtain ⟨_, rfl⟩ := mergeAll_eq_none hall
    cases hrow
    exact ⟨u, by rw [Grounds.acceptEvery, Option.getD_none], hb.same hu hd fun _ => id⟩
  | some m =>
    have hout : ∀ w ∈ outputs, w.DistinctKeys := by
      intro w hw
      obtain ⟨member, hm, haccept, _⟩ := exists_of_forall₂_of_mem hrow.flip hw
      exact Grounds.accept_distinctKeys hflat hfields (hmeets.every hm).reaches hd haccept
    have hmembers : List.Forall₂ (fun member w => ∃ again,
        grounds.accept member u depth entered = some again ∧ again.Same w) members outputs := by
      refine forall₂_imp_of_mem hrow fun member hm w hw h => ?_
      exact h.2 u (hmeets.every hm) hd hu (hb.of_mergeAll hu hout hall hw)
    obtain ⟨agains, haccept, hagain⟩ := exists_between_of_forall₂ hmembers
    have hout' : ∀ w ∈ agains, w.DistinctKeys := by
      intro w hw
      obtain ⟨member, hm, ha⟩ := exists_of_forall₂_of_mem haccept.flip hw
      exact Grounds.accept_distinctKeys hflat hfields (hmeets.every hm).reaches hu ha
    obtain ⟨all', hall', hsame⟩ := mergeAll_congr (fun a ha => by cases ha)
      (fun a ha => by cases ha) hout hout' .none hagain hall
    cases hsame with
    | @some m' _ hsm =>
      refine ⟨m', ?_, hsm⟩
      exact Grounds.acceptEvery_eq_some.mpr ⟨agains, some m', haccept, hall', rfl⟩

theorem repeating_inductive {kind : PolicyKind} (hpolicy : grounds.policy = kind.policy)
    (hflat : grounds.policy.Flat) (hfields : root.DistinctFields grounds.targets)
    (hsettled : grounds.Settled root document result) :
    grounds.Inductive (repeating grounds root document result) where
  leaf leaf value depth entered output h u _ _ hu hb := by
    rw [hpolicy] at h
    obtain ⟨_, hscalar, hagain⟩ := kind.settling leaf value output h
    have hsame : u.Same output :=
      hb.1.same_of_not_object fun kept heq => by rw [heq] at hscalar; cases hscalar
    obtain ⟨again, ha, hsa⟩ := hagain u hsame
    refine ⟨again, ?_, hsa⟩
    rw [Grounds.accept, hpolicy, ha]
    rfl
  null inner depth entered u _ _ _ hb := by
    have hsame := hb.1.same_of_not_object fun kept h => by cases h
    cases hsame.eq_null
    exact ⟨.null, by rw [Grounds.accept]; rfl, rfl⟩
  nullable inner value depth entered output hnull haccept ih u hmeets hd hu hb := by
    obtain ⟨again, ha, hsa⟩ := ih u (hmeets.inner hnull) hd hu hb
    have hu' : ¬u.isNull := by
      rw [hb.isNull (Grounds.accept_trims hflat haccept)]
      exact hnull
    exact ⟨again, by rw [Grounds.accept, if_neg hu', ha], hsa⟩
  union before member after value depth entered output hbefore haccept ih u hmeets hd hu hb := by
    have hturn := hsettled before member after value u depth entered output hmeets hbefore haccept
      hu hb
    have hagain := ih u (hmeets.chosen hbefore haccept) hd hu hb
    rw [Grounds.accept]
    exact Grounds.acceptFirst_of_member hturn hagain
  intersection members outputs all value depth entered hrow hall :=
    repeating_intersection hflat hfields hrow hall
  reference r target value depth entered output henter ht haccept ih u hmeets hd hu hb := by
    obtain ⟨again, ha, hsa⟩ := ih u (hmeets.target ht) hd hu hb
    refine ⟨again, ?_, hsa⟩
    rw [Grounds.accept_reference grounds u depth henter, ht]
    exact ha
  any value depth entered u _ hd hu hb := by
    refine ⟨u, ?_, hb.same hu hd fun _ => id⟩
    rw [Grounds.accept_structural grounds u depth entered rfl]
    rfl
  scalar value depth entered hscalar u _ hd hu hb := by
    have hsame := hb.same hu hd fun _ => id
    refine ⟨u, ?_, hsame⟩
    rw [Grounds.accept_structural grounds u depth entered rfl]
    cases value with
    | array | object => simp [Json.nesting] at hscalar
    | _ => cases u <;> first | rfl | cases hsame
  container schema value depth entered children assemble outputs hc hdepth hrow := by
    cases hc with
    | items he => exact repeating_items hflat hfields he hdepth hrow
    | entries he => exact repeating_entries hflat hfields he hdepth hrow
    | fields hf => exact repeating_fields hflat hfields hf hdepth hrow

end Steps

end Conformance
