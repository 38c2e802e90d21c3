import Conformance.Proofs.Graph
import Conformance.Schema.Absence

/-!
# Contractive graphs

A graph is contractive if no reference leads back to itself before a container is
entered, and if so few references follow each other at one node that the bound on them is
not met. What a check remembers at a node are the cells of a way through the graph that
enters no container, so in a contractive graph every reference that it meets may be
followed.
-/

namespace Conformance

namespace Schema

/-- A schema comes to another at one node: through members, inner schemas and references,
but into no container. The cells are those of the references on the way, the last one
first. -/
inductive ComesTo (targets : Targets) (origin : Schema) : List CellId → Schema → Prop
  /-- A schema is where it starts. -/
  | start : ComesTo targets origin [] origin
  /-- What is no container leads to its parts. -/
  | part {cells : List CellId} {whole part : Schema} (h : ComesTo targets origin cells whole)
    (hs : whole.isStructural = false) (hp : part ∈ whole.parts) :
    ComesTo targets origin cells part
  /-- A reference leads to the schema in its cell. -/
  | target {cells : List CellId} {r : Reference} {schema : Schema}
    (h : ComesTo targets origin cells (.reference r)) (ht : targets r.cell = some schema) :
    ComesTo targets origin (r.cell :: cells) schema

/-- Every cycle of references enters a container, and no more references than the bound
follow each other without one. A reference counts as soon as the way comes to it, whether
or not it leads anywhere. -/
structure Contractive (targets : Targets) (root : Schema) : Prop where
  /-- A reference does not lead to its own cell before a container is entered. -/
  guarded : ∀ origin cells r, Reaches targets root origin →
    ComesTo targets origin cells (.reference r) → r.cell ∉ cells
  /-- A further reference is still within the bound. -/
  bounded : ∀ origin cells r, Reaches targets root origin →
    ComesTo targets origin cells (.reference r) → cells.length < maxHops

/-- A schema is met at a node after the references through the cells in `entered`. -/
def OnNode (targets : Targets) (root : Schema) (entered : List CellId) (schema : Schema) : Prop :=
  ∃ origin, Reaches targets root origin ∧ ComesTo targets origin entered schema

section OnNode

variable {targets : Targets} {root schema : Schema} {entered : List CellId}

/-- What a schema comes to occurs in the graph. -/
theorem ComesTo.reaches {origin : Schema} (h : ComesTo targets origin entered schema)
    (hr : Reaches targets root origin) : Reaches targets root schema := by
  induction h with
  | start => exact hr
  | part _ _ hp ih => exact ih.part hp
  | target _ ht ih => exact ih.target ht

/-- What is met at a node occurs in the graph. -/
theorem OnNode.reaches (h : OnNode targets root entered schema) : Reaches targets root schema :=
  let ⟨_, hr, hc⟩ := h
  hc.reaches hr

/-- A check of a schema of the graph starts without references. -/
theorem Reaches.onNode (h : Reaches targets root schema) : OnNode targets root [] schema :=
  ⟨schema, h, .start⟩

/-- With what is no container its parts are met at the node. -/
theorem OnNode.part {whole : Schema} (h : OnNode targets root entered whole)
    (hs : whole.isStructural = false) (hp : schema ∈ whole.parts) :
    OnNode targets root entered schema :=
  let ⟨origin, hr, hc⟩ := h
  ⟨origin, hr, hc.part hs hp⟩

/-- With a reference the schema in its cell is met at the node. -/
theorem OnNode.target {r : Reference} (h : OnNode targets root entered (.reference r))
    (ht : targets r.cell = some schema) : OnNode targets root (r.cell :: entered) schema :=
  let ⟨origin, hr, hc⟩ := h
  ⟨origin, hr, hc.target ht⟩

/-- In a contractive graph every reference that is met may be followed. -/
theorem Contractive.mayFollow (hg : Contractive targets root) {r : Reference}
    (h : OnNode targets root entered (.reference r)) :
    entered.length < maxHops ∧ r.cell ∉ entered :=
  let ⟨origin, hr, hc⟩ := h
  ⟨hg.bounded origin entered r hr hc, hg.guarded origin entered r hr hc⟩

/-- In a contractive graph no more references are being followed than the bound allows. -/
theorem Contractive.length_le (hg : Contractive targets root)
    (h : OnNode targets root entered schema) : entered.length ≤ maxHops := by
  obtain ⟨origin, hr, hc⟩ := h
  induction hc with
  | start => exact Nat.zero_le _
  | part _ _ _ ih => exact ih
  | target hc _ _ => exact hg.bounded origin _ _ hr hc

end OnNode

/-- In a graph whose references all lead to containers no way at one node goes beyond the
first reference. -/
theorem ComesTo.structural {targets : Targets}
    (ht : ∀ cell schema, targets cell = some schema → schema.isStructural) {origin schema : Schema}
    {cells : List CellId} (h : ComesTo targets origin cells schema) :
    cells = [] ∨ schema.isStructural := by
  induction h with
  | start => exact .inl rfl
  | part _ hs _ ih =>
    rw [hs] at ih
    exact .inl (ih.resolve_right Bool.false_ne_true)
  | target _ hcell _ => exact .inr (ht _ _ hcell)

/-- A graph whose references all lead to containers is contractive. -/
theorem Contractive.of_structural {targets : Targets} (root : Schema)
    (ht : ∀ cell schema, targets cell = some schema → schema.isStructural) :
    Contractive targets root := by
  have hnone : ∀ origin cells r, ComesTo targets origin cells (.reference r) → cells = [] :=
    fun origin cells r h => (h.structural ht).resolve_right Bool.false_ne_true
  constructor
  · intro origin cells r _ h
    rw [hnone origin cells r h]
    exact List.not_mem_nil
  · intro origin cells r _ h
    rw [hnone origin cells r h]
    decide

end Schema

end Conformance
