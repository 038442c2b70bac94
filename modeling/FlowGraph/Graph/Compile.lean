import FlowGraph.Catalog.Standard
import FlowGraph.Draft.Finish

/-! # Compiling a graph

    From its entry, a graph is walked along the signals. A node that a
    signal reaches builds its code by the recipe of its kind; the inputs
    that the recipe asks for are computed by walking the value wires
    backwards. An output that several wires leave is computed once and
    shared.

    A signal must not come back to a node that it is still running through,
    and an output must not be needed for its own computation. So the nodes
    that are open one inside the other all differ, and so do the outputs,
    which bounds the depth of the walk by the size of the graph.
-/

namespace FlowGraph

namespace Graph

/-- A step of the walk: it may fail, and it adds to the draft. -/
abbrev Walk := StateT Draft (Except GraphError)

/-- A node with its number and its kind. -/
structure Resolved where
  id : NodeId
  node : Node
  kind : Kind

namespace Resolved

def site (r : Resolved) : Site := ⟨r.id, r.node.kind, r.node.tag⟩

/-- The first literal typed into an input that the kind does not declare. -/
def strayInset? (r : Resolved) : Option Nat :=
  (List.range r.node.insets.length).find? fun index =>
    r.kind.inputs.length ≤ index && (r.node.inset? index).isSome

end Resolved

/-- A node and its kind; `none` if the node was removed. -/
def resolve (g : Graph) (catalog : Catalog) (id : NodeId) : Except GraphError (Option Resolved) :=
  match g.node? id with
  | none => .ok none
  | some node =>
    match catalog.get? node.kind with
    | none => .error (.unknownKind id node.kind)
    | some kind =>
      let r : Resolved := ⟨id, node, kind⟩
      match r.strayInset? with
      | some index => .error (.inputOutOfRange id node.kind index kind.inputs.length)
      | none => .ok (some r)

def problem (p : LooseWire) : Walk Unit := modify fun d => d.record p

def refuse {α : Type} (e : GraphError) : Walk α := throw e

/-! ## Values -/

/-- From the form that a value is produced in to the form that is consumed. -/
def adapt (produced consumed : PortDecl) (value : Code) : Code :=
  match produced.form, consumed.form with
  | .native, .native =>
    if produced.category = consumed.category then value
    else consumed.category.cast (produced.category.wrap value)
  | .native, .boxed => produced.category.wrap value
  | .boxed, .native => consumed.category.cast value
  | .boxed, .boxed => value

/-- The value of an input that no wire drives. -/
def unconnected (r : Resolved) (index : Nat) (decl : PortDecl) : Code :=
  let value := decl.category.load ((r.node.inset? index).getD .null)
  match decl.form with
  | .native => value
  | .boxed => decl.category.wrap value

/-- An output that drives a value input. -/
structure Producer where
  port : Port
  decl : PortDecl
  source : Resolved

/-- The output at the start of a wire to a value input, or `none` after
    recording why there is none. -/
def producer? (g : Graph) (catalog : Catalog) (id : WireId) (w : Wire) : Walk (Option Producer) := do
  match ← g.resolve catalog w.source.node with
  | none =>
    problem (.missingSource id w.source.node)
    return none
  | some source =>
    match source.kind.outputs[w.source.index]? with
    | none =>
      problem (.missingOutput id w.source)
      return none
    | some decl =>
      if decl.isSignal then
        problem (.signalIntoValue id w.target)
        return none
      else return some ⟨w.source, decl, source⟩

section

-- Whatever follows a wire takes single steps of the walk, and may do more of its own.
variable {m : Type → Type} [Monad m] [MonadLiftT Walk m]

/-- The value of an input. `compute` gives the value of an output. -/
@[specialize]
def inputWith (g : Graph) (catalog : Catalog) (compute : Producer → m Code) (r : Resolved)
    (index : Nat) : m Code := do
  let port : Port := ⟨r.id, index⟩
  match r.kind.inputs[index]? with
  | none => refuse (.inputOutOfRange r.id r.node.kind index r.kind.inputs.length)
  | some decl =>
    if decl.isSignal then refuse (.notAValue port)
    else
      match g.arriving port with
      | [] => return unconnected r index decl
      | [(id, w)] =>
        match ← g.producer? catalog id w with
        | none => return unconnected r index decl
        | some producer => return adapt producer.decl decl (← compute producer)
      | wires => refuse (.valueFanIn port wires.length)

/-! ## Signals -/

/-- The signal input at the end of a wire, or `none` after recording why
    there is none. -/
def target? (g : Graph) (catalog : Catalog) (id : WireId) (w : Wire) :
    Walk (Option (Resolved × Nat)) := do
  match ← g.resolve catalog w.target.node with
  | none =>
    problem (.missingTarget id w.target.node)
    return none
  | some r =>
    match r.kind.inputs[w.target.index]? with
    | none =>
      problem (.missingInput id w.target)
      return none
    | some decl =>
      if decl.isSignal then return some (r, w.target.index)
      else
        problem (.signalIntoValue id w.target)
        return none

/-- Everything at the ends of signal wires, in order. `activate` gives the
    code of a node at a signal input. -/
@[specialize]
def followWires (g : Graph) (catalog : Catalog) (activate : Resolved → Nat → m Code) :
    List (WireId × Wire) → m Code
  | [] => return Code.done .void
  | (id, w) :: rest => do
    match ← g.target? catalog id w with
    | none => followWires g catalog activate rest
    | some (r, index) =>
      let first ← activate r index
      let others ← followWires g catalog activate rest
      return .andThen first others

/-- Everything that a signal output activates. -/
@[specialize]
def followPort (g : Graph) (catalog : Catalog) (activate : Resolved → Nat → m Code) (p : Port) :
    m Code :=
  followWires g catalog activate (g.leaving p)

/-- Everything that a signal output of a node activates. -/
@[specialize]
def followWith (g : Graph) (catalog : Catalog) (activate : Resolved → Nat → m Code) (r : Resolved)
    (index : Nat) : m Code :=
  let port : Port := ⟨r.id, index⟩
  match r.kind.outputs[index]? with
  | none => refuse (.outputOutOfRange r.id r.node.kind index r.kind.outputs.length)
  | some decl =>
    if decl.isSignal then followPort g catalog activate port else refuse (.notASignal port)

/-- Everything that the signal outputs among the declared ones activate. -/
@[specialize]
def followAll (g : Graph) (catalog : Catalog) (activate : Resolved → Nat → m Code) (id : NodeId) :
    List (PortDecl × Nat) → m Code
  | [] => return Code.done .void
  | (decl, index) :: rest =>
    if decl.isSignal then do
      let first ← followPort g catalog activate ⟨id, index⟩
      let others ← followAll g catalog activate id rest
      return .andThen first others
    else followAll g catalog activate id rest

/-! ## The walk -/

/-- Runs a recipe with answers to its requests. -/
@[specialize]
def perform {α : Type} (input follow : Nat → m Code) : Recipe α → m α
  | .done a => return a
  | .fail e => refuse e
  | .input index next => do perform input follow (next (← input index))
  | .follow index next => do perform input follow (next (← follow index))

end

/-- What the walk goes to next. -/
inductive Visit where
  /-- A node, by a signal at an input. -/
  | activate (r : Resolved) (input : Nat)
  /-- An output whose value is needed. -/
  | compute (producer : Producer)

/-- Shares the value of an output that several wires leave. -/
def shareIfNeeded (g : Graph) (producer : Producer) (value : Code) : Walk Code := do
  if (g.leaving producer.port).length ≤ 1 then return value
  else modifyGet fun d => d.share producer.port value producer.decl.default

/-- The code of a node or of an output. `active` are the nodes that signals
    run through, `evaluating` the outputs that are being computed. The first
    argument bounds the depth; without any left, whatever is visited must
    have been open already. -/
def visit (g : Graph) (catalog : Catalog) :
    Nat → List NodeId → List Port → Visit → Walk Code
  | 0, _, _, .activate r _ => throw (.signalCycle r.id)
  | 0, _, _, .compute producer => throw (.valueCycle producer.port)
  | depth + 1, active, evaluating, .activate r input => do
    if r.id ∈ active then throw (.signalCycle r.id)
    let deeper := visit g catalog depth (r.id :: active) evaluating
    perform
      (inputWith g catalog (fun producer => deeper (.compute producer)) r)
      (followWith g catalog (fun r input => deeper (.activate r input)) r)
      (r.kind.behaviour.activate r.site input)
  | depth + 1, active, evaluating, .compute producer => do
    if let some code := (← get).shared? producer.port then return code
    if producer.port ∈ evaluating then throw (.valueCycle producer.port)
    let deeper := visit g catalog depth active (producer.port :: evaluating)
    let r := producer.source
    let value ← perform
      (inputWith g catalog (fun producer => deeper (.compute producer)) r)
      (followWith g catalog (fun r input => deeper (.activate r input)) r)
      (r.kind.behaviour.compute r.site producer.port.index)
    shareIfNeeded g producer value

/-- Nodes and outputs that are open one inside the other all differ, and
    every output starts a wire. -/
def depthBound (g : Graph) : Nat := g.nodes.length + g.wires.length + 1

/-- The node that execution starts from. -/
def start (g : Graph) (catalog : Catalog) : Except GraphError Resolved := do
  match g.entry with
  | none => throw .noEntry
  | some id =>
    match ← g.resolve catalog id with
    | none => throw (.missingEntry id)
    | some entry => return entry

/-- The code of a graph, and the draft that belongs to it. -/
def walk (g : Graph) (catalog : Catalog) : Except GraphError (Code × Draft) := do
  let entry ← g.start catalog
  let activate r input := visit g catalog g.depthBound [entry.id] [] (.activate r input)
  followAll g catalog activate entry.id entry.kind.outputs.zipIdx {}

/-- Compiles a graph with the kinds of a catalog. -/
def compile (g : Graph) (catalog : Catalog) : Except GraphError Compilation := do
  let (body, draft) ← g.walk catalog
  return draft.finish body

end Graph

end FlowGraph
