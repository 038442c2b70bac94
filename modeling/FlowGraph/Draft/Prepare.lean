import FlowGraph.Draft.Basic

/-! # Reserving slots

    Before code is laid out, every variable and every shared computation
    that it names gets a slot, in the order in which they are met. The
    computation of a shared value is searched when its slot is reserved, and
    only then.
-/

namespace FlowGraph

namespace Code

/-- Reserves what the code names. `enter` does the same for the computation
    of a shared value that had no slot yet. -/
def prepareWith (enter : Code → Draft → Draft) : Code → Draft → Draft
  | .op _ _, d => d
  | .done _, d => d
  | .andThen first rest, d => rest.prepareWith enter (first.prepareWith enter d)
  | .raw _ _, d => d
  | .shared id _, d =>
    match d.shared[id]? with
    | some ⟨value, _, _, none⟩ => enter value (d.giveSlot id)
    | _ => d
  | .getVariable name, d => (d.variableSlot name).2
  | .setVariable name value, d => value.prepareWith enter (d.variableSlot name).2
  | .loop times body, d => body.prepareWith enter (times.prepareWith enter d)
  | .branch condition yes no, d =>
    no.prepareWith enter (yes.prepareWith enter (condition.prepareWith enter d))

end Code

namespace Draft

/-- Reserves what the code names, with at most so many computations entered
    one inside the other. -/
def prepareNested : Nat → Code → Draft → Draft
  | 0 => Code.prepareWith fun _ d => d
  | depth + 1 => Code.prepareWith (prepareNested depth)

/-- Reserves what the code names. A computation is entered when it gets its
    slot, so no more than there are can be open at once. -/
def prepare (d : Draft) (c : Code) : Draft := prepareNested d.shared.length c d

end Draft

end FlowGraph
