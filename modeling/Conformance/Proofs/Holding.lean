import Conformance.Proofs.Following
import Conformance.Store.Release

/-!
# What a kept schema holds

A kept schema holds the cells of its strong references, and through what lies in these
further ones; so does what is bound to a name. A sweep releases no cell that is held, and
what held it before still holds it afterwards. Following a cell takes nothing away from
what is held either.
-/

namespace Conformance

/-- The cells held by members are those that some member holds. -/
theorem mem_heldByMembers {cell : CellId} {members : List Schema} :
    cell ∈ heldByMembers members ↔ ∃ member ∈ members, cell ∈ member.heldCells := by
  induction members with
  | nil => simp [heldByMembers]
  | cons member rest ih => simp [heldByMembers, ih]

/-- A cell is held in a store as long as a schema is kept: by the schema, by a schema that is
bound to a name, or by what lies in a cell that is held. -/
inductive Store.Holds (store : Store) (root : Schema) : CellId → Prop
  /-- The kept schema holds the cell. -/
  | kept {cell : CellId} (h : cell ∈ root.heldCells) : Holds store root cell
  /-- A bound schema holds the cell. -/
  | bound {cell : CellId} (h : cell ∈ heldByMembers (store.bindings.map Prod.snd)) :
    Holds store root cell
  /-- A held cell of the store holds the cell. -/
  | cell {holder cell : CellId} (h : Holds store root holder) (hs : holder < store.size)
    (hc : cell ∈ (store.cells holder).heldCells) : Holds store root cell

namespace Store

variable {store : Store} {root : Schema} {kept : List Schema} {cell : CellId}

/-- No held cell is among those to release. -/
theorem Holds.not_mem_unheldCells (h : store.Holds root cell) (hk : root ∈ kept) :
    cell ∉ store.unheldCells kept := by
  have hheld : cell ∈ store.heldCells kept := by
    rw [heldCells, List.mem_append, List.mem_append]
    cases h with
    | kept h => exact .inl (.inl (mem_heldByMembers.mpr ⟨root, hk, h⟩))
    | bound h => exact .inl (.inr h)
    | @cell holder _ _ hs hc =>
      exact .inr (List.mem_flatMap.mpr ⟨holder, List.mem_range.mpr hs, hc⟩)
  intro hm
  have hnot := (List.mem_filter.mp hm).2
  simp [hheld] at hnot

/-- What is not among the released cells stays in its state. -/
theorem cells_release {cells : List CellId} (h : cell ∉ cells) :
    (store.release cells).cells cell = store.cells cell := by
  simp [release, h]

/-- What is held stays held if no held cell is released. -/
theorem Holds.release {cells : List CellId} (hkeep : ∀ c, store.Holds root c → c ∉ cells)
    (h : store.Holds root cell) : (store.release cells).Holds root cell := by
  induction h with
  | kept h => exact .kept h
  | bound h => exact .bound h
  | @cell holder cell h hs hc ih =>
    refine .cell ih hs ?_
    rw [cells_release (hkeep holder h)]
    exact hc

/-- The rounds of a sweep leave a held cell in its state, and held. -/
theorem Holds.sweepRounds (hk : root ∈ kept) (rounds : Nat) (h : store.Holds root cell) :
    (sweepRounds kept rounds store).Holds root cell ∧
      (sweepRounds kept rounds store).cells cell = store.cells cell := by
  induction rounds generalizing store with
  | zero => exact ⟨h, rfl⟩
  | succ rounds ih =>
    have hkeep : ∀ c, store.Holds root c → c ∉ store.unheldCells kept :=
      fun c hc => hc.not_mem_unheldCells hk
    rw [Store.sweepRounds]
    split
    · exact ⟨h, rfl⟩
    · next cells hcells =>
      have hlater : (store.release (store.unheldCells kept)).Holds root cell := h.release hkeep
      obtain ⟨hheld, hstate⟩ := ih hlater
      exact ⟨hheld, hstate.trans (cells_release (hkeep cell h))⟩

/-- A sweep leaves a held cell in its state, and held. -/
theorem Holds.sweep (hk : root ∈ kept) (h : store.Holds root cell) :
    (store.sweep kept).Holds root cell ∧ (store.sweep kept).cells cell = store.cells cell :=
  h.sweepRounds hk store.size

/-- The rounds of a sweep change no binding, and a cell that they change is released. -/
theorem sweepRounds_cases (store : Store) (kept : List Schema) (rounds : Nat) (cell : CellId) :
    (sweepRounds kept rounds store).bindings = store.bindings ∧
      ((sweepRounds kept rounds store).cells cell = store.cells cell ∨
        (sweepRounds kept rounds store).cells cell = .released) := by
  induction rounds generalizing store with
  | zero => exact ⟨rfl, .inl rfl⟩
  | succ rounds ih =>
    rw [Store.sweepRounds]
    split
    · exact ⟨rfl, .inl rfl⟩
    · obtain ⟨hbindings, hstate⟩ := ih (store.release (store.unheldCells kept))
      refine ⟨hbindings, ?_⟩
      by_cases hm : cell ∈ store.unheldCells kept
      · have hreleased : (store.release (store.unheldCells kept)).cells cell = .released := by
          simp [Store.release, hm]
        rw [hreleased, or_self] at hstate
        exact .inr hstate
      · rw [cells_release hm] at hstate
        exact hstate

/-- After a sweep a held cell leads where it did. -/
theorem Holds.target?_sweep (hk : root ∈ kept) (h : store.Holds root cell) :
    (store.sweep kept).target? cell = store.target? cell := by
  have hbindings := (sweepRounds_cases store kept store.size cell).1
  rw [target?, target?, (h.sweep hk).2]
  rw [Store.sweep, hbindings]

/-- After a sweep a cell that led nowhere leads nowhere. -/
theorem target?_sweep_of_none (kept : List Schema) (h : store.target? cell = none) :
    (store.sweep kept).target? cell = none := by
  obtain ⟨hbindings, hstate⟩ := sweepRounds_cases store kept store.size cell
  rw [target?, Store.sweep, hbindings]
  rcases hstate with hstate | hstate
  · rw [hstate]
    exact h
  · rw [hstate]

/-- Following a cell takes no cell away from what another one holds. -/
theorem heldCells_fetch? (store : Store) (cell other : CellId) :
    (store.cells other).heldCells ⊆ ((fetch? cell store).2.cells other).heldCells := by
  by_cases heq : other = cell
  · subst heq
    unfold fetch?
    cases hcell : store.cells other with
    | pending resolver =>
      have hfilled : (store.runResolver other resolver).cells other =
          .filled (resolver.schema store.bindings) := if_pos rfl
      dsimp only
      rw [hfilled]
      cases resolver with
      | constant schema counter => exact fun _ => id
      | binding name => exact List.nil_subset _
    | undefined | filled | released =>
      dsimp only
      rw [hcell]
      exact fun _ => id
  · rw [cells_fetch?_of_ne store heq]
    exact fun _ => id

/-- Following a cell changes no binding and uses no further cell. -/
theorem bindings_fetch? (store : Store) (cell : CellId) :
    (fetch? cell store).2.bindings = store.bindings ∧ (fetch? cell store).2.size = store.size := by
  unfold fetch?
  cases store.cells cell <;> exact ⟨rfl, rfl⟩

/-- What is held stays held when a cell is followed. -/
theorem Holds.fetch? (other : CellId) (h : store.Holds root cell) :
    (Store.fetch? other store).2.Holds root cell := by
  obtain ⟨hbindings, hsize⟩ := bindings_fetch? store other
  induction h with
  | kept h => exact .kept h
  | bound h => exact .bound (by rw [hbindings]; exact h)
  | @cell holder cell _ hs hc ih =>
    exact .cell ih (by rw [hsize]; exact hs) (heldCells_fetch? store other holder hc)

/-- What is held stays held while cells are followed. -/
theorem Holds.follows {P : CellId → Prop} {later : Store} (h : store.Holds root cell)
    (hfollows : store.Follows P later) : later.Holds root cell := by
  induction hfollows with
  | start => exact h
  | @step _ other _ _ ih => exact ih.fetch? other

end Store

/-- A schema holds its graph in a store: every cell that a reference of the graph leads
through to a schema is held as long as the schema is kept. -/
def Schema.HoldsGraph (root : Schema) (store : Store) : Prop :=
  ∀ r target, Reaches store.target? root (.reference r) → store.target? r.cell = some target →
    store.Holds root r.cell

end Conformance
