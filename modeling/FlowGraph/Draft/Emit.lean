import FlowGraph.Draft.Uses
import FlowGraph.Op.Block

/-! # Laying out code

    Turns a code tree into operations: variables and shared computations
    become slots, loops and branches become labels and jumps.

    A shared computation is computed where it is first used. Before the arms
    of a branch, or the body of a loop, the paths part: what at least two of
    the arms and the code behind them need is computed ahead of them
    (`hoist`), what only one of them needs is left to it. What an arm or a
    body stored is forgotten behind it.
-/

namespace FlowGraph

/-- Operations, and the draft after laying them out. -/
structure Emission where
  block : Block
  draft : Draft

/-- The operations, one after the other. -/
def Emission.ops (e : Emission) : List Op := e.block.toList

namespace Draft

/-- How the computation of a shared value is laid out: with the number of
    slots in use and the code that runs afterwards. -/
abbrev Enter := Code → Nat → List Code → Draft → Emission

/-! ## Raw code -/

/-- The labels that operations name, each once, in order. -/
def localLabels (ops : List Op) : List Label := (ops.filterMap Op.label?).eraseDups

/-- Renames the local labels to fresh ones. -/
def emitRaw (ops : List Op) (d : Draft) : Emission :=
  let labels := localLabels ops
  ⟨.ops (ops.map (Op.relabel fun l => d.nextLabel + labels.idxOf l)),
    { d with nextLabel := d.nextLabel + labels.length }⟩

/-! ## Shared computations -/

/-- Leaves the value of a shared computation: computes and stores it, or
    loads it. One that the draft does not know reads as zero. -/
def emitShared (enter : Enter) (id : SharedId) (ty : Ty) (used : Nat) (after : List Code)
    (d : Draft) : Emission :=
  match d.shared[id]? with
  | none => ⟨.ops ((Const.zero? ty).toList.map .const), d⟩
  | some entry =>
    let (slot, d) := d.slotOf id entry
    if d.isStored id then ⟨.ops [.load slot ty], d⟩
    else
      let value := enter entry.value used after (d.markStored id)
      ⟨value.block ++ .ops [.dup, .store slot ty], value.draft⟩

/-- Computes a shared computation into its slot, unless it is there. -/
def storeShared (enter : Enter) (id : SharedId) (used : Nat) (after : List Code) (d : Draft) :
    Emission :=
  match d.shared[id]? with
  | none => ⟨.ops [], d⟩
  | some entry =>
    if d.isStored id then ⟨.ops [], d⟩
    else
      let (slot, d) := d.slotOf id entry
      let value := enter entry.value used after (d.markStored id)
      ⟨value.block ++ .ops [.store slot entry.value.ty], value.draft⟩

/-- Stores the listed computations one after the other. -/
def storeAll (enter : Enter) (used : Nat) (after : List Code) : List SharedId → Draft → Emission
  | [], d => ⟨.ops [], d⟩
  | id :: rest, d =>
    let first := d.storeShared enter id used after
    let others := storeAll enter used after rest first.draft
    ⟨first.block ++ others.block, others.draft⟩

/-- The computations to store before the paths part: those that two or more
    of the regions and the code behind them refer to. Later ones come first,
    since computing them stores the earlier ones that they need. -/
def toHoist (d : Draft) (regions after : List Code) : List SharedId :=
  if d.shared.isEmpty then []
  else
    let needs := d.uses after :: regions.map fun region => d.uses [region]
    (List.range d.shared.length).reverse.filter fun id => 2 ≤ needs.countP (·.contains id)

/-- Stores ahead of `regions` what their paths share with each other or with
    the code `after` them. `following` is all that runs afterwards. -/
def hoist (enter : Enter) (used : Nat) (regions after following : List Code) (d : Draft) : Emission :=
  d.storeAll enter used following (d.toHoist regions after)

end Draft

/-! ## Code -/

namespace Code

open Draft in
/-- Lays out code. `used` slots are in use, and the code `after` runs
    afterwards; `enter` lays out the computation of a shared value. -/
def emitWith (enter : Enter) : Code → Nat → List Code → Draft → Emission
  | .op o _, _, _, d => ⟨.ops [o], d⟩
  | .done _, _, _, d => ⟨.ops [], d⟩
  | .andThen first rest, used, after, d =>
    let a := first.emitWith enter used (rest :: after) d
    let b := rest.emitWith enter used after a.draft
    ⟨a.block ++ b.block, b.draft⟩
  | .raw _ ops, _, _, d => d.emitRaw ops
  | .shared id ty, used, after, d => d.emitShared enter id ty used after
  | .getVariable name, _, _, d =>
    let (slot, d) := d.variableSlot name
    ⟨.ops [.load slot (.ref .object)], d⟩
  | .setVariable name value, used, after, d =>
    let v := value.emitWith enter used after d
    let (slot, d) := v.draft.variableSlot name
    ⟨v.block ++ .ops [.store slot (.ref .object)], d⟩
  | .loop times body, used, after, d =>
    let t := times.emitWith enter used (body :: after) d
    let (limit, d) := t.draft.tempSlot used
    let (counter, d) := d.tempSlot (limit + 1)
    let (head, d) := d.freshLabel
    let (exit, d) := d.freshLabel
    -- what the body shares with the code behind it is stored once, ahead of the test
    let h := d.hoist enter (counter + 1) [body] after (body :: after)
    let b := body.emitWith enter (counter + 1) after h.draft
    ⟨t.block ++
      .ops [.store limit .double, .const (.number .zero), .store counter .double] ++
      h.block ++
      .ops [.label head, .load counter .double, .load limit .double, .compare .lt,
        .jumpUnless exit] ++
      b.block ++
      .ops [.load counter .double, .const (.number .one), .arith .add, .store counter .double,
        .jump head, .label exit],
      b.draft.restoreMarks h.draft.stored⟩
  | .branch condition yes no, used, after, d =>
    let c := condition.emitWith enter used (yes :: no :: after) d
    let h := c.draft.hoist enter used [yes, no] after (yes :: no :: after)
    let (otherwise, d) := h.draft.freshLabel
    let (last, d) := d.freshLabel
    let y := yes.emitWith enter used after d
    -- the other arm cannot count on what only the first one has stored
    let n := no.emitWith enter used after (y.draft.restoreMarks h.draft.stored)
    ⟨c.block ++ h.block ++ .ops [.jumpUnless otherwise] ++
      y.block ++ .ops [.jump last, .label otherwise] ++
      n.block ++ .ops [.label last],
      n.draft.restoreMarks h.draft.stored⟩

end Code

namespace Draft

/-- Lays out code, with at most so many computations of shared values entered
    one inside the other. -/
def emitNested : Nat → Enter
  | 0 => Code.emitWith fun _ _ _ d => ⟨.ops [], d⟩
  | depth + 1 => Code.emitWith (emitNested depth)

/-- Lays out code, with `used` slots in use. A computation counts as stored
    when it is entered, so no more than there are can be open at once. -/
def emit (d : Draft) (c : Code) (used : Nat) : Emission := emitNested d.shared.length c used [] d

end Draft

end FlowGraph
