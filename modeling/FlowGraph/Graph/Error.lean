import FlowGraph.Graph.Basic

/-! # What can be wrong with a graph

    * A `GraphError` makes the graph meaningless: nothing is compiled.
    * A `LooseWire` is a wire that leads nowhere. The rest of the graph is
      compiled as if the wire were not there.
-/

namespace FlowGraph

inductive GraphError where
  | noEntry
  | missingEntry (node : NodeId)
  | unknownKind (node : NodeId) (kind : String)
  | inputOutOfRange (node : NodeId) (kind : String) (index declared : Nat)
  | outputOutOfRange (node : NodeId) (kind : String) (index declared : Nat)
  /-- Several wires drive one value input. -/
  | valueFanIn (port : Port) (count : Nat)
  /-- A signal comes back to a node that it is still running through. -/
  | signalCycle (node : NodeId)
  /-- A value is needed to compute itself. -/
  | valueCycle (port : Port)
  | notAValue (port : Port)
  | notASignal (port : Port)
  | notActivatable (node : NodeId) (kind : String)
  | noValueOutput (node : NodeId) (kind : String) (index : Nat)
  | missingTag (node : NodeId) (kind : String)
  | tooManyArguments (target : String) (count : Nat)
  deriving DecidableEq, Repr

namespace GraphError

def message : GraphError → String
  | .noEntry => "graph has no entry node"
  | .missingEntry node => s!"entry node {node.display} does not exist"
  | .unknownKind node kind => s!"node {node.display} uses unknown kind `{kind}`"
  | .inputOutOfRange node kind index declared =>
    s!"node {node.display} ({kind}) has no input {index}; the kind declares {declared}"
  | .outputOutOfRange node kind index declared =>
    s!"node {node.display} ({kind}) has no output {index}; the kind declares {declared}"
  | .valueFanIn port count => s!"value input {port.display} is driven by {count} wires"
  | .signalCycle node => s!"signal wiring loops back into node {node.display}"
  | .valueCycle port => s!"value of output {port.display} depends on itself"
  | .notAValue port => s!"{port.display} is a signal port where a value was expected"
  | .notASignal port => s!"{port.display} is a value port where a signal was expected"
  | .notActivatable node kind => s!"node {node.display} ({kind}) cannot be activated by a signal"
  | .noValueOutput node kind index => s!"node {node.display} ({kind}) does not compute output {index}"
  | .missingTag node kind => s!"node {node.display} ({kind}) needs a tag"
  | .tooManyArguments target count =>
    s!"call to `{target}` passes {count} arguments; at most 255 fit"

end GraphError

inductive LooseWire where
  /-- The wire starts at a removed node. -/
  | missingSource (wire : WireId) (node : NodeId)
  /-- The wire ends at a removed node. -/
  | missingTarget (wire : WireId) (node : NodeId)
  | missingOutput (wire : WireId) (port : Port)
  | missingInput (wire : WireId) (port : Port)
  | signalIntoValue (wire : WireId) (input : Port)
  deriving DecidableEq, Repr

namespace LooseWire

def message : LooseWire → String
  | .missingSource wire node => s!"{wire.display} comes from removed node {node.display}"
  | .missingTarget wire node => s!"{wire.display} leads to removed node {node.display}"
  | .missingOutput wire port =>
    s!"{wire.display} comes from output {port.display}, which its node does not have"
  | .missingInput wire port =>
    s!"{wire.display} leads to input {port.display}, which its node does not have"
  | .signalIntoValue wire input => s!"{wire.display} connects a signal to value input {input.display}"

end LooseWire

end FlowGraph
