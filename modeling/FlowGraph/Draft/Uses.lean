import FlowGraph.Draft.Basic

/-! # Use of shared computations

    Which shared computations a piece of code may refer to: those that it
    names, and those that the computations of the ones not yet stored name
    in turn.
-/

namespace FlowGraph

namespace Code

/-- Adds the shared computations that the code names to those found so far.
    `enter` is applied to each new one. -/
def usesWith (enter : SharedId → List SharedId → List SharedId) :
    Code → List SharedId → List SharedId
  | .op _ _, found => found
  | .done _, found => found
  | .andThen first rest, found => rest.usesWith enter (first.usesWith enter found)
  | .raw _ _, found => found
  | .shared id _, found => if found.contains id then found else enter id (id :: found)
  | .getVariable _, found => found
  | .setVariable _ value, found => value.usesWith enter found
  | .loop times body, found => body.usesWith enter (times.usesWith enter found)
  | .branch condition yes no, found =>
    no.usesWith enter (yes.usesWith enter (condition.usesWith enter found))

end Code

namespace Draft

/-- The computation behind a shared value that is not stored. -/
def pending? (d : Draft) (id : SharedId) : Option Code :=
  if d.isStored id then none else d.shared[id]?.map Shared.value

/-- Adds what the code refers to, with at most so many computations entered
    one inside the other. -/
def usesNested (d : Draft) : Nat → Code → List SharedId → List SharedId
  | 0 => Code.usesWith fun _ found => found
  | depth + 1 => Code.usesWith fun id found =>
    match d.pending? id with
    | some value => usesNested d depth value found
    | none => found

/-- The shared computations that the pieces of code may refer to. Each
    computation is entered once, so no more than there are can be open at
    once. -/
def uses (d : Draft) (pieces : List Code) : List SharedId :=
  pieces.foldl (fun found c => d.usesNested d.shared.length c found) []

end Draft

end FlowGraph
