import FlowGraph.Graph.Literal

/-! # Flow graphs

    An authored graph: nodes, the wires between their ports, and the node
    that execution starts from.

    A node's number is its place in the list. Removing a node leaves a gap,
    so the numbers of the others stay valid, and wires of the removed node
    lead nowhere rather than elsewhere.
-/

namespace FlowGraph

/-- The number of a node. -/
abbrev NodeId := Nat

namespace NodeId

def display (id : NodeId) : String := "#" ++ toString id

end NodeId

/-- An input or an output of a node; a wire's `source` is an output, its
    `target` an input. -/
structure Port where
  node : NodeId
  index : Nat
  deriving DecidableEq, Repr

namespace Port

def display (p : Port) : String := NodeId.display p.node ++ "." ++ toString p.index

end Port

structure Wire where
  source : Port
  target : Port
  deriving DecidableEq, Repr

/-- The number of a wire, its place in the list. -/
abbrev WireId := Nat

namespace WireId

def display (id : WireId) : String := "wire " ++ toString id

end WireId

structure Node where
  /-- Names the kind, which declares the ports. -/
  kind : String
  /-- What is typed into the inputs, for when they are not connected. -/
  insets : List (Option Literal) := []
  /-- An identifier that some kinds need: a variable, a host function. -/
  tag : Option String := none
  deriving DecidableEq, Repr

namespace Node

def inset? (n : Node) (index : Nat) : Option Literal := n.insets[index]?.join

/-- The node with a literal typed into an input. -/
def withInset (n : Node) (index : Nat) (literal : Literal) : Node :=
  let gap := List.replicate (index + 1 - n.insets.length) none
  { n with insets := (n.insets ++ gap).set index (some literal) }

end Node

structure Graph where
  nodes : List (Option Node) := []
  /-- In the order in which a signal follows them. -/
  wires : List Wire := []
  entry : Option NodeId := none
  deriving DecidableEq, Repr

namespace Graph

/-! ## Nodes -/

def node? (g : Graph) (id : NodeId) : Option Node := g.nodes[id]?.join

/-- Adds a node behind the others. -/
def addNode (g : Graph) (n : Node) : NodeId × Graph :=
  (g.nodes.length, { g with nodes := g.nodes ++ [some n] })

/-- Takes a node out, leaving its wires. -/
def removeNode (g : Graph) (id : NodeId) : Option Node × Graph :=
  (g.node? id, { g with nodes := g.nodes.set id none })

/-- The nodes that are there, with their numbers. -/
def liveNodes (g : Graph) : List (NodeId × Node) :=
  g.nodes.zipIdx.filterMap fun (n, id) => n.map fun n => (id, n)

/-! ## Wires -/

def wire? (g : Graph) (id : WireId) : Option Wire := g.wires[id]?

def connect (g : Graph) (source target : Port) : WireId × Graph :=
  (g.wires.length, { g with wires := g.wires ++ [⟨source, target⟩] })

/-- The wires with their numbers, in order. -/
def numberedWires (g : Graph) : List (WireId × Wire) := g.wires.zipIdx.map fun (w, id) => (id, w)

/-- The wires that leave an output, in order. -/
def leaving (g : Graph) (p : Port) : List (WireId × Wire) :=
  g.numberedWires.filter fun (_, w) => w.source == p

/-- The wires that arrive at an input, in order. -/
def arriving (g : Graph) (p : Port) : List (WireId × Wire) :=
  g.numberedWires.filter fun (_, w) => w.target == p

end Graph

end FlowGraph
