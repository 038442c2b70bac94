import FlowGraph.Draft.Emit
import FlowGraph.Draft.Prepare

/-! # Finishing a program

    A program starts by giving every reserved slot its first value, in the
    order of the slots: null for a variable, the default for a shared
    computation. So no reserved slot is read before it is written. The code
    follows, and a `return` ends the program.
-/

namespace FlowGraph

/-- A program, and the wires that led nowhere. -/
structure Compilation where
  program : Program
  problems : List LooseWire
  deriving Repr

/-- The first value of a reserved slot. -/
structure Initial where
  slot : Nat
  value : Const
  ty : Ty
  deriving DecidableEq, Repr

namespace Initial

/-- Puts one in front of the first that is not below it. -/
def insert (i : Initial) : List Initial → List Initial
  | [] => [i]
  | j :: rest => if i.slot ≤ j.slot then i :: j :: rest else j :: insert i rest

/-- In the order of the slots. -/
def sorted (list : List Initial) : List Initial := list.foldr insert []

end Initial

namespace Draft

/-- The reserved slots with their first values. -/
def initials (d : Draft) : List Initial :=
  d.variableSlots.reverse.map (fun v => ⟨v.2, .null, .ref .object⟩) ++
    d.shared.filterMap fun entry => entry.slot.map fun slot => ⟨slot, entry.default, entry.ty⟩

/-- Gives the reserved slots their first values. -/
def prologue (d : Draft) : List Op :=
  (Initial.sorted d.initials).flatMap fun i => [.const i.value, .store i.slot i.ty]

/-- The program with this code. -/
def finish (d : Draft) (body : Code) : Compilation :=
  let prepared := d.prepare body
  let code := prepared.emit body prepared.nextSlot
  ⟨⟨code.draft.prologue ++ code.ops ++ [.ret], code.draft.nextSlot⟩, code.draft.problems⟩

end Draft

end FlowGraph
