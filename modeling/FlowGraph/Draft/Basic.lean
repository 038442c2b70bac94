import FlowGraph.Code.Basic
import FlowGraph.Program.Basic

/-! # Programs under construction

    A draft collects what one program needs beyond its code: slots, labels,
    variables, shared computations, and the wires that led nowhere.

    A **shared computation** is code whose value is used in several places.
    It is computed at its first use on a path and kept in a slot; the later
    uses read the slot. `stored` holds the computations that are in their
    slots on every path to the point that is being laid out.
-/

namespace FlowGraph

structure Shared where
  value : Code
  ty : Ty
  /-- What the slot holds before the computation first runs. -/
  default : Const
  slot : Option Nat := none
  deriving DecidableEq, Repr

structure Draft where
  /-- The number of slots in use. -/
  nextSlot : Nat := 0
  nextLabel : Label := 0
  /-- The slot of each variable. -/
  variableSlots : List (String × Nat) := []
  shared : List Shared := []
  stored : List SharedId := []
  /-- The shared computation of an output, the latest first. -/
  memo : List (Port × SharedId) := []
  problems : List LooseWire := []
  deriving Repr

namespace Draft

/-! ## Slots and labels -/

def reserve (d : Draft) : Nat × Draft := (d.nextSlot, { d with nextSlot := d.nextSlot + 1 })

/-- The slot of a variable, a new one at its first use. -/
def variableSlot (d : Draft) (name : String) : Nat × Draft :=
  match d.variableSlots.lookup name with
  | some slot => (slot, d)
  | none =>
    (d.nextSlot,
      { d with nextSlot := d.nextSlot + 1, variableSlots := (name, d.nextSlot) :: d.variableSlots })

/-- A slot for a temporary, at or above `used`. -/
def tempSlot (d : Draft) (used : Nat) : Nat × Draft :=
  let slot := max used d.nextSlot
  (slot, { d with nextSlot := slot + 1 })

def freshLabel (d : Draft) : Label × Draft := (d.nextLabel, { d with nextLabel := d.nextLabel + 1 })

/-! ## Shared computations -/

/-- Shares the computation of an output; the result stands for its value. -/
def share (d : Draft) (p : Port) (value : Code) (default : Const) : Code × Draft :=
  let id := d.shared.length
  (.shared id value.ty,
    { d with
      shared := d.shared ++ [⟨value, value.ty, default, none⟩]
      memo := (p, id) :: d.memo })

/-- The value of an output that is already shared. -/
def shared? (d : Draft) (p : Port) : Option Code := do
  let id ← d.memo.lookup p
  let entry ← d.shared[id]?
  return .shared id entry.ty

def isStored (d : Draft) (id : SharedId) : Bool := d.stored.contains id

/-- Gives a shared computation a new slot. -/
def giveSlot (d : Draft) (id : SharedId) : Draft :=
  { d with
    nextSlot := d.nextSlot + 1
    shared := d.shared.modify id fun entry => { entry with slot := some d.nextSlot } }

/-- The slot of a shared computation, a new one if it has none. -/
def slotOf (d : Draft) (id : SharedId) (entry : Shared) : Nat × Draft :=
  match entry.slot with
  | some slot => (slot, d)
  | none => (d.nextSlot, d.giveSlot id)

def markStored (d : Draft) (id : SharedId) : Draft := { d with stored := id :: d.stored }

/-- Forgets what was stored since the marks were taken. -/
def restoreMarks (d : Draft) (marks : List SharedId) : Draft := { d with stored := marks }

/-! ## Problems -/

/-- Records a problem once. -/
def record (d : Draft) (problem : LooseWire) : Draft :=
  if problem ∈ d.problems then d else { d with problems := d.problems ++ [problem] }

end Draft

end FlowGraph
