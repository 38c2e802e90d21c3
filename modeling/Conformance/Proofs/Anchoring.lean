import Conformance.Proofs.Holding
import Conformance.Proofs.Reading

/-!
# What a schema is anchored to

A definition owns itself through its handle only; where it mentions itself nothing is held. So
that a mention leads somewhere does not follow from the mention, but from the way on which
strong references own its cell, starting at the schema that is kept. Names own nothing here:
what is bound to one may be given up at any time. A schema is anchored if it owns, in this way,
the cells of all references that occur in its graph.
-/

namespace Conformance

namespace Cell

/-- The schema that lies in a cell, or that its resolver gives whatever is bound to names. -/
def content? : Cell → Option Schema
  | .filled schema | .pending (.constant schema _) => some schema
  | _ => none

/-- Whether following a cell gives a schema. -/
def leadsOn : Cell → Bool
  | .filled _ | .pending _ => true
  | _ => false

/-- A cell that has a content leads on, and holds what the content holds. -/
theorem leadsOn_of_content? {cell : Cell} {schema : Schema} (h : cell.content? = some schema) :
    cell.leadsOn ∧ cell.heldCells = schema.heldCells := by
  cases cell with
  | filled => cases h; exact ⟨rfl, rfl⟩
  | pending resolver =>
    cases resolver with
    | constant => cases h; exact ⟨rfl, rfl⟩
    | binding => cases h
  | _ => cases h

end Cell

namespace Store

variable {store later : Store} {root : Schema} {cell : CellId}

/-- The contents of the cells. -/
def contents (store : Store) : Targets := fun cell => (store.cells cell).content?

/-- A cell leads to a schema exactly if its state says so. -/
theorem target?_isSome : (store.target? cell).isSome = (store.cells cell).leadsOn := by
  rw [target?]
  cases store.cells cell <;> rfl

/-- A schema owns a cell: by a strong reference of its own, or by one in the content of a cell
that it owns. -/
inductive Owns (store : Store) (root : Schema) : CellId → Prop
  /-- The schema holds the cell. -/
  | held {cell : CellId} (h : cell ∈ root.heldCells) : Owns store root cell
  /-- The content of an owned cell holds the cell. -/
  | inside {holder cell : CellId} {schema : Schema} (h : Owns store root holder)
    (hs : holder < store.size) (hc : store.contents holder = some schema)
    (hcell : cell ∈ schema.heldCells) : Owns store root cell

/-- Whoever owns what a schema holds owns what the schema owns. -/
theorem Owns.of_forall {part : Schema} (hheld : ∀ c ∈ part.heldCells, store.Owns root c)
    (h : store.Owns part cell) : store.Owns root cell := by
  induction h with
  | held h => exact hheld _ h
  | inside _ hs hc hcell ih => exact .inside ih hs hc hcell

/-- What is owned stays owned if no content of an owned cell is lost. -/
theorem Owns.transfer (hsize : store.size ≤ later.size)
    (hkeep : ∀ c schema, store.Owns root c → c < store.size → store.contents c = some schema →
      later.contents c = some schema)
    (h : store.Owns root cell) : later.Owns root cell := by
  induction h with
  | held h => exact .held h
  | @inside holder cell schema h hs hc hcell ih =>
    exact .inside ih (Nat.lt_of_lt_of_le hs hsize) (hkeep holder schema h hs hc) hcell

/-- What is owned stays owned when a cell without content changes its state. -/
theorem Owns.of_ne {changed : CellId} (hsize : store.size ≤ later.size)
    (hfresh : changed < store.size → store.contents changed = none)
    (hkeep : ∀ c, c ≠ changed → later.cells c = store.cells c)
    (h : store.Owns root cell) : later.Owns root cell := by
  refine h.transfer hsize fun holder schema _ hs hc => ?_
  have hne : holder ≠ changed := fun heq => by
    rw [heq, hfresh (heq ▸ hs)] at hc
    cases hc
  rw [contents, hkeep holder hne]
  exact hc

/-- What a kept or bound schema owns is held when cells are released. -/
theorem Owns.mem_heldCells {kept : List Schema}
    (hroot : root ∈ kept ∨ root ∈ store.bindings.map Prod.snd) (h : store.Owns root cell) :
    cell ∈ store.heldCells kept := by
  rw [heldCells, List.mem_append, List.mem_append]
  cases h with
  | held h =>
    rcases hroot with hroot | hroot
    · exact .inl (.inl (mem_heldByMembers.mpr ⟨root, hroot, h⟩))
    · exact .inl (.inr (mem_heldByMembers.mpr ⟨root, hroot, h⟩))
  | @inside holder _ schema _ hs hc hcell =>
    refine .inr (List.mem_flatMap.mpr ⟨holder, List.mem_range.mpr hs, ?_⟩)
    rw [(Cell.leadsOn_of_content? hc).2]
    exact hcell

/-- A schema secures a cell: the cell is in use and leads on, and the schema owns it. -/
structure Secures (store : Store) (root : Schema) (cell : CellId) : Prop where
  /-- The cell is in use. -/
  inUse : cell < store.size
  /-- The cell leads to a schema. -/
  leadsOn : (store.cells cell).leadsOn
  /-- The schema owns the cell. -/
  owned : store.Owns root cell

end Store

/-- A schema is anchored in a store: it secures the cells of all references that occur in its
graph, but for those of definitions that are not complete. -/
def Schema.Anchored (store : Store) (unfinished : List CellId) (root : Schema) : Prop :=
  ∀ r, Reaches store.contents root (.reference r) →
    r.cell ∈ unfinished ∨ store.Secures root r.cell

/-- The cells held by the schemas of fields are those that one of them holds. -/
theorem mem_heldByFields {cell : CellId} {fields : List (Field Schema)} :
    cell ∈ heldByFields fields ↔ ∃ field ∈ fields, cell ∈ field.schema.heldCells := by
  induction fields with
  | nil => simp [heldByFields]
  | cons field rest ih => simp [heldByFields, ih]

/-- A schema holds what its parts hold. -/
theorem Schema.heldCells_part {schema part : Schema} (h : part ∈ schema.parts) :
    part.heldCells ⊆ schema.heldCells := by
  intro cell hcell
  cases schema with
  | list | nullable | record =>
    rw [List.mem_singleton.mp h] at hcell
    exact hcell
  | union members | intersection members => exact mem_heldByMembers.mpr ⟨part, h, hcell⟩
  | struct fields | object name fields =>
    obtain ⟨field, hm, rfl⟩ := List.mem_map.mp h
    exact mem_heldByFields.mpr ⟨field, hm, hcell⟩
  | leaf | json | any | reference => cases h

/-- A schema that holds a cell is a reference to it, or has a part that holds it. -/
theorem Schema.mem_heldCells {schema : Schema} {cell : CellId} (h : cell ∈ schema.heldCells) :
    (∃ r, schema = .reference r ∧ r.cell = cell) ∨
      ∃ part ∈ schema.parts, cell ∈ part.heldCells := by
  cases schema with
  | list | nullable | record => exact .inr ⟨_, List.mem_singleton_self _, h⟩
  | union | intersection => exact .inr (mem_heldByMembers.mp h)
  | struct | object =>
    obtain ⟨field, hm, hc⟩ := mem_heldByFields.mp h
    exact .inr ⟨field.schema, List.mem_map_of_mem hm, hc⟩
  | leaf | json | any => cases h
  | reference r =>
    rw [heldCells] at h
    split at h
    · exact .inl ⟨r, rfl, (List.mem_singleton.mp h).symm⟩
    · cases h

namespace Schema

variable {targets later : Targets} {root schema : Schema}

/-- A cell that is held by what occurs in a graph is that of a reference in this graph. -/
theorem Reaches.holding {schema : Schema} {cell : CellId} (h : Reaches targets root schema)
    (hcell : cell ∈ schema.heldCells) :
    ∃ r, r.cell = cell ∧ Reaches targets root (.reference r) := by
  rcases mem_heldCells hcell with ⟨r, rfl, hr⟩ | ⟨part, hp, hc⟩
  · exact ⟨r, hr, h⟩
  · exact (h.part hp).holding hc
termination_by sizeOf schema
decreasing_by exact sizeOf_part hp

/-- What occurs in a graph is the root, occurs in the graph of a part, or in that of what a
reference at the root leads to. -/
theorem Reaches.head (h : Reaches targets root schema) :
    schema = root ∨ (∃ part ∈ root.parts, Reaches targets part schema) ∨
      ∃ r target, root = .reference r ∧ targets r.cell = some target ∧
        Reaches targets target schema := by
  induction h with
  | root => exact .inl rfl
  | @part whole part _ hp ih =>
    rcases ih with rfl | ⟨first, hf, hr⟩ | ⟨r, target, hroot, ht, hr⟩
    · exact .inr (.inl ⟨part, hp, .root⟩)
    · exact .inr (.inl ⟨first, hf, hr.part hp⟩)
    · exact .inr (.inr ⟨r, target, hroot, ht, hr.part hp⟩)
  | @target r target _ ht ih =>
    rcases ih with heq | ⟨first, hf, hr⟩ | ⟨r', target', hroot, ht', hr⟩
    · exact .inr (.inr ⟨r, target, heq.symm, ht, .root⟩)
    · exact .inr (.inl ⟨first, hf, hr.target ht⟩)
    · exact .inr (.inr ⟨r', target', hroot, ht', hr.target ht⟩)

/-- What occurs in a later graph occurred before, if the references of the graph before lead
to nothing new. -/
theorem Reaches.of_later
    (hsub : ∀ r target, Reaches targets root (.reference r) → later r.cell = some target →
      targets r.cell = some target)
    (h : Reaches later root schema) : Reaches targets root schema := by
  induction h with
  | root => exact .root
  | part _ hp ih => exact ih.part hp
  | target _ ht ih => exact ih.target (hsub _ _ ih ht)

/-- What occurs in a graph where a cell leads to a new schema occurred before, or the cell was
reached and it occurs in the graph of the new schema. -/
theorem Reaches.of_new {cell : CellId} {inner : Schema} (hnew : later cell = some inner)
    (hkeep : ∀ c, c ≠ cell → later c = targets c) (h : Reaches later root schema) :
    Reaches targets root schema ∨
      (∃ r, r.cell = cell ∧ Reaches targets root (.reference r)) ∧ Reaches targets inner schema := by
  induction h with
  | root => exact .inl .root
  | part _ hp ih => exact ih.imp (fun hr => hr.part hp) fun hr => ⟨hr.1, hr.2.part hp⟩
  | @target r target _ ht ih =>
    by_cases heq : r.cell = cell
    · rw [heq, hnew] at ht
      cases ht
      rcases ih with hr | ⟨hcell, _⟩
      · exact .inr ⟨⟨r, heq, hr⟩, .root⟩
      · exact .inr ⟨hcell, .root⟩
    · rw [hkeep _ heq] at ht
      exact ih.imp (fun hr => hr.target ht) fun hr => ⟨hr.1, hr.2.target ht⟩

/-- What occurs behind a reference to a new schema is the reference, or occurred in the graph of
this schema. -/
theorem Reaches.behind {r : Reference} {inner : Schema} (hnew : later r.cell = some inner)
    (hkeep : ∀ c, c ≠ r.cell → later c = targets c) (h : Reaches later (.reference r) schema) :
    schema = .reference r ∨ Reaches targets inner schema := by
  induction h with
  | root => exact .inl rfl
  | part _ hp ih =>
    rcases ih with rfl | hr
    · cases hp
    · exact .inr (hr.part hp)
  | @target r' target _ ht ih =>
    by_cases heq : r'.cell = r.cell
    · rw [heq, hnew] at ht
      cases ht
      exact .inr .root
    · rw [hkeep _ heq] at ht
      rcases ih with hr | hr
      · cases hr
        exact absurd rfl heq
      · exact .inr (hr.target ht)

end Schema

/-- A cell that a schema owns is that of a reference in its graph. -/
theorem Store.Owns.reached {store : Store} {root : Schema} {cell : CellId}
    (h : store.Owns root cell) :
    ∃ r, r.cell = cell ∧ Schema.Reaches store.contents root (.reference r) := by
  induction h with
  | held h => exact Schema.Reaches.root.holding h
  | inside _ _ hc hcell ih =>
    obtain ⟨r, rfl, hr⟩ := ih
    exact (hr.target hc).holding hcell

namespace Schema.Anchored

variable {store later : Store} {root schema : Schema} {unfinished : List CellId} {cell : CellId}

/-- A cell that an anchored schema owns is that of a definition that is not complete, or is
secured. -/
theorem owned (h : root.Anchored store unfinished) (hcell : store.Owns root cell) :
    cell ∈ unfinished ∨ store.Secures root cell := by
  obtain ⟨r, rfl, hr⟩ := hcell.reached
  exact h r hr

/-- A schema is anchored whichever more definitions are not complete. -/
theorem mono {more : List CellId} (h : root.Anchored store unfinished)
    (hsub : unfinished ⊆ more) : root.Anchored store more :=
  fun r hr => (h r hr).imp_left fun hm => hsub hm

/-- A schema stays anchored if no cell that it owns changes, and the definitions that are not
complete stay so. -/
theorem transfer (h : root.Anchored store unfinished) (hsize : store.size ≤ later.size)
    (hkeep : ∀ c, store.Owns root c → c < store.size → later.cells c = store.cells c)
    (hunfinished : ∀ c ∈ unfinished, later.cells c = store.cells c) :
    root.Anchored later unfinished := by
  have howns : ∀ c, store.Owns root c → later.Owns root c := fun c hc =>
    hc.transfer hsize fun holder schema ho hs hcontent => by
      rw [Store.contents, hkeep holder ho hs]
      exact hcontent
  intro r hr
  have hbefore : Reaches store.contents root (.reference r) := by
    refine Reaches.of_later (fun r' target hr' ht => ?_) hr
    rw [Store.contents] at ht ⊢
    rcases h r' hr' with hm | hsecured
    · rwa [hunfinished _ hm] at ht
    · rwa [hkeep _ hsecured.owned hsecured.inUse] at ht
  refine (h r hbefore).imp_right fun hsecured => ⟨?_, ?_, howns _ hsecured.owned⟩
  · exact Nat.lt_of_lt_of_le hsecured.inUse hsize
  · rw [hkeep _ hsecured.owned hsecured.inUse]
    exact hsecured.leadsOn

/-- A schema that is no reference is anchored if its parts are. -/
theorem of_parts (hne : ∀ r, root ≠ .reference r)
    (h : ∀ part ∈ root.parts, part.Anchored store unfinished) :
    root.Anchored store unfinished := by
  intro r hr
  rcases hr.head with heq | ⟨part, hp, hr⟩ | ⟨r', _, heq, _⟩
  · exact absurd heq.symm (hne r)
  · refine (h part hp r hr).imp_right fun hsecured => ⟨hsecured.inUse, hsecured.leadsOn, ?_⟩
    exact hsecured.owned.of_forall fun c hc => .held (heldCells_part hp hc)
  · exact absurd heq (hne r')

/-- A reference whose cell has no content is anchored if its definition is not complete, or if
it is strong and leads on. -/
theorem of_no_content {r : Reference} (hcontent : store.contents r.cell = none)
    (h : r.cell ∈ unfinished ∨ store.Secures (.reference r) r.cell) :
    (Schema.reference r).Anchored store unfinished := by
  intro r' hr
  rcases hr.head with heq | ⟨part, hp, _⟩ | ⟨r'', target, heq, ht, _⟩
  · cases heq
    exact h
  · cases hp
  · cases heq
    rw [hcontent] at ht
    cases ht

/-- A strong reference secures its own cell. -/
theorem secures_self {r : Reference} (hstrong : r.isStrong) (hin : r.cell < store.size)
    (hleads : (store.cells r.cell).leadsOn) : store.Secures (.reference r) r.cell :=
  ⟨hin, hleads, .held (by rw [heldCells, if_pos hstrong]; exact List.mem_singleton_self _)⟩

/-- A schema is put into a cell that had no content: a strong reference to this cell is
anchored if the schema was, where the cell counted as not complete. -/
theorem behind {r : Reference} (hstrong : r.isStrong)
    (h : schema.Anchored store (r.cell :: unfinished))
    (hfresh : r.cell < store.size → store.contents r.cell = none)
    (hsize : store.size ≤ later.size) (hin : r.cell < later.size)
    (hcontent : later.contents r.cell = some schema)
    (hkeep : ∀ c, c ≠ r.cell → later.cells c = store.cells c) :
    (Schema.reference r).Anchored later unfinished := by
  have hself : later.Secures (.reference r) r.cell :=
    secures_self hstrong hin (Cell.leadsOn_of_content? hcontent).1
  have howns : ∀ c, store.Owns schema c → later.Owns (.reference r) c := fun c hc =>
    (hc.of_ne hsize hfresh hkeep).of_forall fun _ hm => .inside hself.owned hin hcontent hm
  intro r' hr
  by_cases heq : r'.cell = r.cell
  · rw [heq]
    exact .inr hself
  · have hbehind := hr.behind hcontent fun c hc => congrArg Cell.content? (hkeep c hc)
    rcases hbehind with hr | hr
    · cases hr
      exact absurd rfl heq
    · rcases h r' hr with hm | hsecured
      · exact .inl ((List.mem_cons.mp hm).resolve_left heq)
      · refine .inr ⟨Nat.lt_of_lt_of_le hsecured.inUse hsize, ?_, howns _ hsecured.owned⟩
        rw [hkeep _ heq]
        exact hsecured.leadsOn

/-- A schema stays anchored if all cells keep their contents and lead on as they did. -/
theorem congr (h : root.Anchored store unfinished) (hsize : later.size = store.size)
    (hcontents : later.contents = store.contents)
    (hleads : ∀ c, (later.cells c).leadsOn = (store.cells c).leadsOn) :
    root.Anchored later unfinished := by
  intro r hr
  rw [hcontents] at hr
  refine (h r hr).imp_right fun hsecured => ⟨?_, ?_, ?_⟩
  · rw [hsize]
    exact hsecured.inUse
  · rw [hleads]
    exact hsecured.leadsOn
  · refine hsecured.owned.transfer (Nat.le_of_eq hsize.symm) fun c inner _ _ hc => ?_
    rw [hcontents]
    exact hc

/-- A cell without content is filled with a schema that is anchored by itself: a schema that
secured the cell wherever it reached it stays anchored. -/
theorem filled {inner : Schema} (h : root.Anchored store unfinished)
    (hinner : inner.Anchored store []) (hcontent : store.contents cell = none)
    (hcell : cell ∉ unfinished) (hsize : later.size = store.size)
    (hfilled : later.cells cell = .filled inner)
    (hkeep : ∀ c, c ≠ cell → later.cells c = store.cells c) :
    root.Anchored later unfinished := by
  have hnew : later.contents cell = some inner := by
    rw [Store.contents, hfilled]
    rfl
  have hsecures : ∀ base c, store.Secures base c → later.Secures base c := by
    intro base c hsecured
    refine ⟨hsize ▸ hsecured.inUse, ?_,
      hsecured.owned.of_ne (Nat.le_of_eq hsize.symm) (fun _ => hcontent) hkeep⟩
    by_cases heq : c = cell
    · rw [heq, hfilled]
      rfl
    · rw [hkeep c heq]
      exact hsecured.leadsOn
  intro r hr
  rcases hr.of_new hnew fun c hc => congrArg Cell.content? (hkeep c hc) with
    hr | ⟨⟨r', heq, hr'⟩, hr⟩
  · exact (h r hr).imp_right (hsecures root _)
  · -- the root owns the cell, and so whatever is owned by what lies in it now
    have hholder := hsecures root _ ((h r' hr').resolve_left fun hm => hcell (heq ▸ hm))
    rw [heq] at hholder
    have hinside := hsecures inner _ ((hinner r hr).resolve_left List.not_mem_nil)
    refine .inr ⟨hinside.inUse, hinside.leadsOn, hinside.owned.of_forall fun c hc => ?_⟩
    exact .inside hholder.owned hholder.inUse hnew hc

/-- A schema stays anchored when a cell is followed, if all schemas are that are bound to
names. -/
theorem fetch? (h : root.Anchored store unfinished)
    (hbound : ∀ bound ∈ store.bindings.map Prod.snd, bound.Anchored store [])
    (hunfinished : ∀ c ∈ unfinished, store.cells c = .undefined) (cell : CellId) :
    root.Anchored (Store.fetch? cell store).2 unfinished := by
  unfold Store.fetch?
  cases hc : store.cells cell with
  | undefined | filled | released => exact h
  | pending resolver =>
    have hfilled : (store.runResolver cell resolver).cells cell =
        .filled (resolver.schema store.bindings) := if_pos rfl
    have hkeep : ∀ c, c ≠ cell →
        (store.runResolver cell resolver).cells c = store.cells c := fun c hne => if_neg hne
    cases resolver with
    | constant schema counter =>
      refine h.congr rfl (funext fun c => ?_) fun c => ?_ <;> by_cases heq : c = cell
      · rw [Store.contents, Store.contents, heq, hfilled, hc]
        rfl
      · rw [Store.contents, Store.contents, hkeep c heq]
      · rw [heq, hfilled, hc]
        rfl
      · rw [hkeep c heq]
    | binding name =>
      refine h.filled ?_ (by rw [Store.contents, hc]; rfl) (fun hm => ?_) rfl hfilled hkeep
      · rw [Resolver.schema]
        cases hl : Entries.lookup name store.bindings with
        | none => exact of_parts (fun r heq => by cases heq) fun part hp => by cases hp
        | some schema => exact hbound schema (List.mem_map.mpr ⟨_, Entries.mem_of_lookup hl, rfl⟩)
      · rw [hunfinished cell hm] at hc
        cases hc

/-- A schema stays anchored when cells are released that it does not own. -/
theorem release {cells : List CellId} (h : root.Anchored store [])
    (hkeep : ∀ c, store.Owns root c → c ∉ cells) : root.Anchored (store.release cells) [] :=
  h.transfer (Nat.le_refl _) (fun c hc _ => Store.cells_release (hkeep c hc))
    fun _ hc => absurd hc List.not_mem_nil

end Schema.Anchored

/-- Everything that is held or bound to a name is anchored in a store. -/
def Store.Sound (store : Store) (held : List Schema) : Prop :=
  ∀ root, root ∈ held ∨ root ∈ store.bindings.map Prod.snd → root.Anchored store []

namespace Store.Sound

variable {store later : Store} {held kept : List Schema}

/-- Everything stays anchored when a cell is followed. -/
theorem fetch? (h : store.Sound held) (cell : CellId) :
    (Store.fetch? cell store).2.Sound held := by
  intro root hroot
  rw [(Store.bindings_fetch? store cell).1] at hroot
  exact (h root hroot).fetch? (fun bound hb => h bound (.inr hb)) (fun c hc => by cases hc) cell

/-- Everything stays anchored while cells are followed. -/
theorem follows {P : CellId → Prop} (h : store.Sound held) (hfollows : store.Follows P later) :
    later.Sound held := by
  induction hfollows with
  | start => exact h
  | step _ _ ih => exact ih.fetch? _

/-- What is held stays anchored in the rounds of a sweep that keeps it. -/
theorem sweepRounds (h : store.Sound held) (hkept : held ⊆ kept) (rounds : Nat) :
    (Store.sweepRounds kept rounds store).Sound held := by
  induction rounds generalizing store with
  | zero => exact h
  | succ rounds ih =>
    rw [Store.sweepRounds]
    split
    · exact h
    · refine ih fun root hroot => (h root hroot).release fun c hc hm => ?_
      have hheld : c ∈ store.heldCells kept :=
        Owns.mem_heldCells (hroot.imp_left fun hm => hkept hm) hc
      have hnot := (List.mem_filter.mp hm).2
      simp [hheld] at hnot

/-- What is held stays anchored when cells are released and it is kept. -/
theorem sweep (h : store.Sound held) (hkept : held ⊆ kept) : (store.sweep kept).Sound held :=
  h.sweepRounds hkept store.size

/-- Names do not matter to what a schema is anchored to. -/
theorem rebind (h : store.Sound held) {bindings : List (String × Schema)}
    (hbound : ∀ bound ∈ bindings.map Prod.snd, bound ∈ held ∨ bound ∈ store.bindings.map Prod.snd) :
    Store.Sound { store with bindings } held := by
  intro root hroot
  exact (h root (hroot.elim .inl (hbound root))).congr rfl rfl fun c => rfl

/-- A schema that is held may be bound to a name. -/
theorem bind (h : store.Sound held) (name : String) {schema : Schema} (hm : schema ∈ held) :
    (store.bind name schema).Sound held := by
  refine h.rebind fun bound hb => ?_
  obtain ⟨entry, he, rfl⟩ := List.mem_map.mp hb
  rcases Entries.mem_insert he with rfl | he
  · exact .inl hm
  · exact .inr (List.mem_map_of_mem he)

/-- A name may be unbound. -/
theorem unbind (h : store.Sound held) (name : String) : (store.unbind name).Sound held := by
  refine h.rebind fun bound hb => ?_
  obtain ⟨entry, he, rfl⟩ := List.mem_map.mp hb
  exact .inr (List.mem_map_of_mem (List.mem_filter.mp he).1)

end Store.Sound

/-- What occurs in the graph of a schema, when all references have been followed, is the literal
of an unbound name, or is among the contents that this schema, or a bound one, reaches. -/
theorem Schema.Reaches.of_target? {store : Store} {root schema : Schema}
    (h : Reaches store.target? root schema) :
    (∃ literal, schema = .literal literal) ∨
      ∃ base, (base = root ∨ base ∈ store.bindings.map Prod.snd) ∧
        Reaches store.contents base schema := by
  induction h with
  | root => exact .inr ⟨root, .inl rfl, .root⟩
  | part _ hp ih =>
    rcases ih with ⟨literal, rfl⟩ | ⟨base, hbase, hr⟩
    · cases hp
    · exact .inr ⟨base, hbase, hr.part hp⟩
  | @target r target _ ht ih =>
    rcases ih with ⟨literal, heq⟩ | ⟨base, hbase, hr⟩
    · cases heq
    · have hcontent : ∀ inner, store.contents r.cell = some inner → inner = target →
          ∃ base, (base = root ∨ base ∈ store.bindings.map Prod.snd) ∧
            Reaches store.contents base target :=
        fun inner hc heq => ⟨base, hbase, hr.target (heq ▸ hc)⟩
      rw [Store.target?] at ht
      split at ht
      · next inner hc =>
        cases ht
        exact .inr (hcontent target (by rw [Store.contents, hc]; rfl) rfl)
      · next resolver hc =>
        cases ht
        cases resolver with
        | constant inner counter =>
          exact .inr (hcontent inner (by rw [Store.contents, hc]; rfl) rfl)
        | binding name =>
          rw [Resolver.schema]
          cases hl : Entries.lookup name store.bindings with
          | none => exact .inl ⟨_, rfl⟩
          | some bound =>
            have hb : bound ∈ store.bindings.map Prod.snd :=
              List.mem_map.mpr ⟨_, Entries.mem_of_lookup hl, rfl⟩
            exact .inr ⟨bound, .inr hb, .root⟩
      · cases ht

/-- Every reference in the graph of a schema that is held leads on. -/
theorem Store.Sound.target?_isSome {store : Store} {held : List Schema} (h : store.Sound held)
    {root : Schema} (hroot : root ∈ held) {r : Reference}
    (hr : Schema.Reaches store.target? root (.reference r)) : (store.target? r.cell).isSome := by
  rcases hr.of_target? with ⟨literal, heq⟩ | ⟨base, hbase, hr⟩
  · cases heq
  · have hanchored : base.Anchored store [] :=
      h base (hbase.imp_left fun heq => by rw [heq]; exact hroot)
    rw [Store.target?_isSome]
    exact ((hanchored r hr).resolve_left List.not_mem_nil).leadsOn

end Conformance
