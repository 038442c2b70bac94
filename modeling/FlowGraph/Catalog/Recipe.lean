import FlowGraph.Code.Category

/-! # Recipes

    What a node of a kind does is a recipe: it builds code, and on the way
    asks for the code of inputs and for the code behind signal outputs. The
    recipe does not see the wires; whoever runs it answers its requests.

    A recipe is a finite tree, so it makes finitely many requests whatever
    the answers are. A request that fails ends it: there is no recipe for a
    kind that goes on without the answer.
-/

namespace FlowGraph

inductive Recipe (α : Type) where
  | done (a : α)
  | fail (e : GraphError)
  /-- Asks for the value of an input, in the form that the port declares. -/
  | input (index : Nat) (next : Code → Recipe α)
  /-- Asks for everything that a signal output activates. -/
  | follow (index : Nat) (next : Code → Recipe α)

namespace Recipe

variable {α β : Type}

/-- One recipe after the other. -/
def bind : Recipe α → (α → Recipe β) → Recipe β
  | .done a, f => f a
  | .fail e, _ => .fail e
  | .input index next, f => .input index fun c => (next c).bind f
  | .follow index next, f => .follow index fun c => (next c).bind f

instance : Monad Recipe where
  pure := .done
  bind := bind

/-- The value of an input. -/
def ask (index : Nat) : Recipe Code := .input index .done

/-- Everything behind a signal output. -/
def send (index : Nat) : Recipe Code := .follow index .done

/-- A result that may be an error. -/
def ofResult : Except GraphError α → Recipe α
  | .ok a => .done a
  | .error e => .fail e

end Recipe

/-- The node that a recipe works for. -/
structure Site where
  node : NodeId
  kind : String
  tag : Option String

namespace Site

/-- The tag, which has to be there. -/
def requireTag (s : Site) : Recipe String :=
  match s.tag with
  | some tag => .done tag
  | none => .fail (.missingTag s.node s.kind)

def notActivatable {α : Type} (s : Site) : Recipe α := .fail (.notActivatable s.node s.kind)

def noValueOutput {α : Type} (s : Site) (index : Nat) : Recipe α :=
  .fail (.noValueOutput s.node s.kind index)

end Site

end FlowGraph
