import FlowGraph.Catalog.Standard
import FlowGraph.Proofs.Recursion

/-! # The meaning of a graph

    What a graph of standard nodes does, said on the graph itself: no code,
    no stack, no slots.

    * A signal leaves the entry by its signal outputs in order. It runs every
      node that it reaches before it goes on with the next wire.
    * A value is computed when it is needed and as often as it is needed, by
      going back along the wires. An input that no value arrives at takes
      what is typed into it, and otherwise zero, false or the empty text.

    The interpretation does not end on a graph that goes in circles, and on
    one with nodes of unknown kinds where a signal or a value needs them. So
    values and nodes are first described from those that they lead to, and
    are then what this description comes to (`Graph.inputValue_eq`,
    `Graph.runNode_eq`).
-/

namespace FlowGraph

/-! ## Roles -/

/-- What the nodes of a standard kind are for. -/
inductive Role where
  | start
  | constant (c : Category)
  | setVariable (c : Category)
  | getVariable (c : Category)
  | emit (c : Category)
  | query (c : Category)
  | arith (f : Arith)
  | compare (f : Comparison)
  | not
  | branch
  | loop
  | mathConstant
  deriving DecidableEq, Repr

namespace Role

def arithName : Arith → String
  | .add => "add"
  | .sub => "subtract"
  | .mul => "multiply"
  | .div => "divide"

def compareName : Comparison → String
  | .lt => "less_than"
  | .gt => "greater_than"
  | .eq => "equals"

/-- The kind whose nodes have the role. -/
def kind : Role → Kind
  | .start => .start
  | .constant c => .constant c
  | .setVariable c => .setVariable c
  | .getVariable c => .getVariable c
  | .emit c => .emit c
  | .query c => .query c
  | .arith f => .arith (arithName f) f
  | .compare f => .compare (compareName f) f
  | .not => .not
  | .branch => .branch
  | .loop => .loop
  | .mathConstant => .mathConstant

/-- The roles that there are for a category of data. -/
def family (c : Category) : List Role :=
  [.constant c, .setVariable c, .getVariable c, .emit c, .query c]

/-- The roles of the standard kinds. -/
def all : List Role :=
  [.start] ++ Category.values.flatMap family ++
  [.arith .add, .arith .sub, .arith .mul, .arith .div,
    .compare .lt, .compare .gt, .compare .eq, .not, .branch, .loop, .mathConstant]

/-- The role that a kind is named for. -/
def ofName? (name : String) : Option Role := all.find? fun role => role.kind.name == name

end Role

/-! ## Conversions of values -/

namespace Value

/-- The number that a value is, zero if it is none. -/
def number : Value → Double
  | .double x => x
  | _ => .zero

/-- The truth value that a value is, false if it is none. -/
def truth : Value → Bool
  | .boolean b => b
  | _ => false

/-- The object that a value refers to, none if it is not a reference. -/
def object : Value → Option Object
  | .ref object => object
  | _ => none

/-- A native value as a reference. -/
def boxed : Value → Value
  | .double x => .ref (some (.double x))
  | .boolean b => .ref (some (.boolean b))
  | .ref object => .ref object

end Value

namespace Category

/-- The native value where nothing of the category is given: zero, false or
    the empty text. -/
def blank : Category → Value
  | .number => .double .zero
  | .condition => .boolean false
  | .text => .text ""
  | .signal => .null

/-- The native value in a reference, and zero, false or the empty text if the
    reference is null or of another class. -/
def unboxed (c : Category) (v : Value) : Value :=
  match c, v with
  | .number, .ref (some (.double x)) => .double x
  | .condition, .ref (some (.boolean b)) => .boolean b
  | .text, .ref (some (.text s)) => .text s
  | c, _ => c.blank

/-- The native value that a literal stands for: an integer is a number too,
    and a literal of another category counts as none. -/
def literalValue : Category → Literal → Value
  | .number, .number x => .double x
  | .number, .integer n => .double (.ofInt n)
  | .condition, .boolean b => .boolean b
  | .text, .text s => .text s
  | c, _ => c.blank

end Category

/-- A value on its way from an output to an input. -/
def PortDecl.adapt (produced consumed : PortDecl) (v : Value) : Value :=
  match produced.form, consumed.form with
  | .native, .native =>
    if produced.category = consumed.category then v else consumed.category.unboxed v.boxed
  | .native, .boxed => v.boxed
  | .boxed, .native => consumed.category.unboxed v
  | .boxed, .boxed => v

namespace Graph

/-! ## Ports -/

/-- A node that is there and of a standard kind, with its role. -/
def role? (g : Graph) (id : NodeId) : Option (Node × Role) := do
  let node ← g.node? id
  let role ← Role.ofName? node.kind
  return (node, role)

def input? (g : Graph) (p : Port) : Option PortDecl := do
  let (_, role) ← g.role? p.node
  role.kind.inputs[p.index]?

def output? (g : Graph) (p : Port) : Option PortDecl := do
  let (_, role) ← g.role? p.node
  role.kind.outputs[p.index]?

/-- A signal that arrives at the port runs the node. -/
def isSignalInput (g : Graph) (p : Port) : Bool := (g.input? p).any PortDecl.isSignal

/-- The port gives a value. -/
def isValueOutput (g : Graph) (p : Port) : Bool := (g.output? p).any fun decl => !decl.isSignal

/-- The signal outputs of a node, in order. -/
def signalOutputs (g : Graph) (id : NodeId) : List Port :=
  match g.role? id with
  | none => []
  | some (_, role) =>
    (role.kind.outputs.zipIdx.filter fun (decl, _) => decl.isSignal).map fun (_, index) => ⟨id, index⟩

/-- The value output that drives an input. -/
def driver? (g : Graph) (p : Port) : Option (Port × PortDecl) := do
  let (_, w) ← (g.arriving p).head?
  let decl ← g.output? w.source
  if decl.isSignal then none else return (w.source, decl)

/-- The value of an input that nothing drives. -/
def ownValue (node : Node) (index : Nat) (decl : PortDecl) : Value :=
  let v := decl.category.literalValue ((node.inset? index).getD .null)
  match decl.form with
  | .native => v
  | .boxed => v.boxed

/-- A node of the graph asks the host for this. -/
def Asks (g : Graph) (target : String) (returns : Ty) : Prop :=
  ∃ id node c, g.role? id = some (node, .query c) ∧ target = node.tag.getD ("query_" ++ c.name) ∧
    returns = c.native

/-- A node of the graph reads this static field. -/
def Reads (g : Graph) (owner name : String) : Prop :=
  ∃ id node, g.role? id = some (node, .mathConstant) ∧ owner = "Math" ∧ name = node.tag.getD "PI"

/-! ## Values -/

section

variable {σ : Type} (g : Graph) (host : Host σ)

/-- The value of an output, from the values of inputs. -/
def outputFrom (input : Port → Act σ Value) (p : Port) : Act σ Value :=
  match g.role? p.node with
  | some (_, .constant _) => input ⟨p.node, 0⟩
  | some (node, .getVariable _) =>
    match node.tag with
    | some name => Act.fetch name
    | none => Act.never
  | some (node, .query c) => do
    match ← host.call (node.tag.getD ("query_" ++ c.name)) [] c.native with
    | some v => return v
    | none => Act.never
  | some (_, .arith f) => do
    let x ← input ⟨p.node, 0⟩
    let y ← input ⟨p.node, 1⟩
    return .double (f.eval x.number y.number)
  | some (_, .compare f) => do
    let x ← input ⟨p.node, 0⟩
    let y ← input ⟨p.node, 1⟩
    return .boolean (f.eval x.number y.number)
  | some (_, .not) => do
    let x ← input ⟨p.node, 0⟩
    return .boolean !x.truth
  | some (node, .mathConstant) => host.field "Math" (node.tag.getD "PI") .double
  | _ => Act.never

/-- The value of an input, in the form that the input declares, from the
    values of outputs. -/
def inputFrom (output : Port → Act σ Value) (p : Port) : Act σ Value :=
  match g.role? p.node with
  | none => Act.never
  | some (node, role) =>
    match role.kind.inputs[p.index]? with
    | none => Act.never
    | some decl =>
      match g.driver? p with
      | some (source, produced) => do
        let v ← output source
        return produced.adapt decl v
      | none => return ownValue node p.index decl

/-- The value of an input, in the form that the input declares. -/
noncomputable def inputValue : Port → Act σ Value :=
  Act.fix fun input => g.inputFrom (g.outputFrom host input)

/-- The value of an output. -/
noncomputable def outputValue : Port → Act σ Value := g.outputFrom host (g.inputValue host)

/-! ## Signals -/

/-- Runs a node that a signal has reached. `follow` runs what wires lead to. -/
noncomputable def nodeFrom (follow : List (WireId × Wire) → Act σ Unit) (id : NodeId) : Act σ Unit :=
  match g.role? id with
  | some (_, .branch) => do
    let condition ← g.inputValue host ⟨id, 1⟩
    if condition.truth then follow (g.leaving ⟨id, 0⟩) else follow (g.leaving ⟨id, 1⟩)
  | some (_, .loop) => do
    let times ← g.inputValue host ⟨id, 1⟩
    Act.repeatBelow times.number (follow (g.leaving ⟨id, 0⟩)) .zero
    follow (g.leaving ⟨id, 1⟩)
  | some (node, .setVariable _) =>
    match node.tag with
    | none => Act.never
    | some name => do
      let v ← g.inputValue host ⟨id, 1⟩
      Act.store name v.object
      follow (g.leaving ⟨id, 0⟩)
  | some (node, .emit c) => do
    let v ← g.inputValue host ⟨id, 1⟩
    let _ ← host.call (node.tag.getD ("emit_" ++ c.name)) [v] .void
    follow (g.leaving ⟨id, 0⟩)
  | _ => Act.never

/-- Runs the nodes at the ends of wires that a signal takes, in order. -/
def wiresFrom (run : NodeId → Act σ Unit) : List (WireId × Wire) → Act σ Unit
  | [] => return ()
  | (_, w) :: rest =>
    if g.isSignalInput w.target then do
      run w.target.node
      wiresFrom run rest
    else wiresFrom run rest

/-- Runs a node that a signal has reached. -/
noncomputable def runNode : NodeId → Act σ Unit :=
  Act.fix fun run => g.nodeFrom host (g.wiresFrom run)

/-- Runs the nodes at the ends of wires that a signal takes, in order. -/
noncomputable def runWires : List (WireId × Wire) → Act σ Unit := g.wiresFrom (g.runNode host)

/-- Follows the wires of outputs, one output after the other. -/
noncomputable def runPorts : List Port → Act σ Unit
  | [] => return ()
  | p :: rest => do
    g.runWires host (g.leaving p)
    runPorts rest

/-- What the graph does with a host: the result and the state of the host
    after it, if it ends. -/
noncomputable def interpret (w : σ) : Option (Except Fault Unit × σ) :=
  match g.entry with
  | none => none
  | some id =>
    match g.runPorts host (g.signalOutputs id) Variables.unset w with
    | none => none
    | some (.ok _, w) => some (.ok (), w)
    | some (.error fault, w) => some (.error fault, w)

end

/-! ## Calls -/

section

variable {σ : Type} {g : Graph} {host : Host σ}

theorem outputFrom_approach {inputs : Nat → Port → Act σ Value} {input : Port → Act σ Value}
    (h : ∀ p, Act.Approach (fun n => inputs n p) (input p)) (p : Port) :
    Act.Approach (fun n => g.outputFrom host (inputs n) p) (g.outputFrom host input p) := by
  unfold outputFrom
  rcases g.role? p.node with _ | ⟨node, role⟩
  · exact .never _
  · cases role with
    | constant => exact h _
    | arith | compare => exact (h _).bind fun _ => (h _).bind fun _ => .same _
    | not => exact (h _).bind fun _ => .same _
    | start | setVariable | getVariable | emit | query | branch | loop | mathConstant => exact .same _

theorem inputFrom_approach {outputs : Nat → Port → Act σ Value} {output : Port → Act σ Value}
    (h : ∀ p, Act.Approach (fun n => outputs n p) (output p)) (p : Port) :
    Act.Approach (fun n => g.inputFrom (outputs n) p) (g.inputFrom output p) := by
  unfold inputFrom
  rcases g.role? p.node with _ | ⟨node, role⟩
  · exact .never _
  · dsimp only
    rcases role.kind.inputs[p.index]? with _ | decl
    · exact .never _
    · rcases g.driver? p with _ | ⟨source, produced⟩
      · exact .same _
      · exact (h source).bind fun _ => .same _

theorem inputValue_eq (p : Port) : g.inputValue host p = g.inputFrom (g.outputValue host) p := by
  have hfinitary : Act.Finitary fun input => g.inputFrom (g.outputFrom host input) :=
    fun h => inputFrom_approach (outputFrom_approach h)
  exact Act.fix_eq hfinitary p

theorem wiresFrom_approach {runs : Nat → NodeId → Act σ Unit} {run : NodeId → Act σ Unit}
    (h : ∀ id, Act.Approach (fun n => runs n id) (run id)) (wires : List (WireId × Wire)) :
    Act.Approach (fun n => g.wiresFrom (runs n) wires) (g.wiresFrom run wires) := by
  induction wires with
  | nil => exact .same _
  | cons w rest ih =>
    unfold wiresFrom
    cases g.isSignalInput w.2.target with
    | true => exact (h _).bind fun _ => ih
    | false => exact ih

theorem nodeFrom_approach {follows : Nat → List (WireId × Wire) → Act σ Unit}
    {follow : List (WireId × Wire) → Act σ Unit}
    (h : ∀ wires, Act.Approach (fun n => follows n wires) (follow wires)) (id : NodeId) :
    Act.Approach (fun n => g.nodeFrom host (follows n) id) (g.nodeFrom host follow id) := by
  unfold nodeFrom
  rcases g.role? id with _ | ⟨node, role⟩
  · exact .never _
  · cases role with
    | branch =>
      refine (Act.Approach.same _).bind fun condition => ?_
      cases condition.truth <;> exact h _
    | loop =>
      exact (Act.Approach.same _).bind fun times =>
        (Act.repeatBelow_approach _ (h _) _).bind fun _ => h _
    | setVariable =>
      dsimp only
      rcases node.tag with _ | name
      · exact .never _
      · exact (Act.Approach.same _).bind fun v => (Act.Approach.same _).bind fun _ => h _
    | emit => exact (Act.Approach.same _).bind fun v => (Act.Approach.same _).bind fun _ => h _
    | start | constant | getVariable | query | arith | compare | not | mathConstant => exact .same _

theorem runNode_eq (id : NodeId) : g.runNode host id = g.nodeFrom host (g.runWires host) id := by
  have hfinitary : Act.Finitary fun run => g.nodeFrom host (g.wiresFrom run) :=
    fun h => nodeFrom_approach (wiresFrom_approach h)
  exact Act.fix_eq hfinitary id

end

end Graph

end FlowGraph
