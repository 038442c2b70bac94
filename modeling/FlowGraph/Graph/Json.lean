import FlowGraph.Graph.Basic
import FlowGraph.Json.Reader

/-! # Graph documents

    A graph as a JSON document. Wires, entry, insets and tag may be left
    out; a gap in the nodes and an input without an inset are `null`. Numbers
    that are typed in are read and written as `Json.Numbers` says.

    Node numbers are 32-bit and port indices 64-bit.
-/

namespace FlowGraph

/-- The form of something that may be absent. -/
def Json.ofOption {α : Type} (toJson : α → Json) : Option α → Json
  | some a => toJson a
  | none => .null

namespace Port

def toJson (p : Port) : Json := .record [("node", .nat p.node), ("index", .nat p.index)]

def ofJson? (j : Json) : Option Port := do
  let [node, index] ← j.fields? ["node", "index"] | none
  return ⟨← (← node).nat? UInt32.size, ← (← index).nat? UInt64.size⟩

end Port

namespace Wire

def toJson (w : Wire) : Json := .record [("from", w.source.toJson), ("to", w.target.toJson)]

def ofJson? (j : Json) : Option Wire := do
  let [source, target] ← j.fields? ["from", "to"] | none
  return ⟨← Port.ofJson? (← source), ← Port.ofJson? (← target)⟩

end Wire

namespace Node

def toJson (n : Node) (numbers : Json.Numbers := .standard) : Json :=
  .record [("kind", .text n.kind), ("insets", .array (n.insets.map (Json.ofOption (Literal.toJson · numbers)))),
    ("tag", Json.ofOption Json.text n.tag)]

def ofJson? (j : Json) (numbers : Json.Numbers := .standard) : Option Node := do
  let [kind, insets, tag] ← j.fields? ["kind", "insets", "tag"] | none
  return {
    kind := ← (← kind).text?
    insets := ← (insets.getD (.array [])).list? (Json.option? (Literal.ofJson? · numbers))
    tag := ← (tag.getD .null).option? Json.text? }

end Node

namespace Graph

def toJson (g : Graph) (numbers : Json.Numbers := .standard) : Json :=
  .record [("nodes", .array (g.nodes.map (Json.ofOption (Node.toJson · numbers)))),
    ("wires", .array (g.wires.map Wire.toJson)), ("entry", Json.ofOption Json.nat g.entry)]

def ofJson? (j : Json) (numbers : Json.Numbers := .standard) : Option Graph := do
  let [nodes, wires, entry] ← j.fields? ["nodes", "wires", "entry"] | none
  return {
    nodes := ← (← nodes).list? (Json.option? (Node.ofJson? · numbers))
    wires := ← (wires.getD (.array [])).list? Wire.ofJson?
    entry := ← (entry.getD .null).option? (Json.nat? UInt32.size) }

/-- The graph as a document without blanks. -/
def document (g : Graph) (numbers : Json.Numbers := .standard) : String := (g.toJson numbers).compact

/-- The graph that a document describes. -/
def ofDocument? (s : String) (numbers : Json.Numbers := .standard) : Option Graph := do
  ofJson? (← Json.parse? s) numbers

end Graph

end FlowGraph
