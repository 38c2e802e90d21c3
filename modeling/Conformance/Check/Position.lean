import Conformance.Rejection
import Conformance.Schema.Absence
import Conformance.Settings

/-!
# Positions of a check

The rules of a check stay the same while it walks a value. Its position is
the path from the root together with the references that are being followed
at that node; a step to a child starts with none.
-/

namespace Conformance

/-- What stays the same during a check. -/
structure Rules where
  /-- The policy for leaves. -/
  policy : Policy
  /-- How many rejections are reported. -/
  mode : Mode := .failFast
  /-- How deep the value may nest. -/
  maxDepth : Nat := defaultMaxDepth

/-- The same rules with only the first rejection reported. -/
def Rules.failFast (rules : Rules) : Rules := { rules with mode := .failFast }

/-- Where a check stands. -/
structure Position where
  /-- The way from the root of the value. -/
  path : Path
  /-- The cells of the references that are being followed at this node. -/
  entered : List CellId

namespace Position

/-- The root of the value. -/
def root : Position := ⟨[], []⟩

/-- The position of a child; no reference is being followed there yet. -/
def child (here : Position) (segment : Segment) : Position := ⟨here.path ++ [segment], []⟩

/-- The same node, with one more reference being followed. -/
def enter (here : Position) (cell : CellId) : Position :=
  { here with entered := cell :: here.entered }

/-- The rejection of the node for one cause. -/
def reject (here : Position) (cause : Cause) : Report := .singleton ⟨here.path, cause⟩

/-- Whether a reference through a cell may be followed. -/
def mayEnter (here : Position) (cell : CellId) : Prop :=
  here.entered.length < maxHops ∧ cell ∉ here.entered

instance (here : Position) (cell : CellId) : Decidable (here.mayEnter cell) :=
  inferInstanceAs (Decidable (_ ∧ _))

end Position

/-- Following a reference uses up a hop. -/
theorem Position.hops_enter_lt {here : Position} {cell : CellId} (h : here.mayEnter cell) :
    maxHops - (here.enter cell).entered.length < maxHops - here.entered.length := by
  have := h.1
  simp only [Position.enter, List.length_cons]
  omega

end Conformance
