import FlowGraph.Machine.Host
import FlowGraph.Machine.Stack
import FlowGraph.Program.Positions

/-! # The stack machine

    Runs a program against a host, within limits.

    * `Op.effect` says what one operation does to the stack and the locals,
      and what it asks of the machine or the host; it is the whole meaning
      of the operations.
    * `Machine.step` answers what an operation asks for.
    * `Machine.run` repeats steps until a `return`, the end of the program,
      a fault or the step limit.
-/

namespace FlowGraph

structure Limits where
  stack : Nat := 1024
  locals : Nat := 4096
  steps : Nat := 1000000

/-! ## Operations -/

/-- The stack and the locals, which are unset at the start. -/
structure Frame where
  stack : Stack
  locals : Array (Option Value)
  deriving DecidableEq, Repr

namespace Frame

def push (limit : Nat) (f : Frame) (v : Value) : Except Fault Frame :=
  if f.stack.depth < limit then .ok { f with stack := f.stack.push v }
  else .error (.stackOverflow limit)

def pop (f : Frame) : Except Fault (Value × Frame) :=
  match f.stack.pop? with
  | some (v, stack) => .ok (v, { f with stack })
  | none => .error .stackUnderflow

def top (f : Frame) : Except Fault Value :=
  match f.stack.values with
  | v :: _ => .ok v
  | [] => .error .stackUnderflow

def popDouble (op : String) (f : Frame) : Except Fault (Double × Frame) := do
  match ← f.pop with
  | (.double x, f) => .ok (x, f)
  | (v, _) => .error (.typeMismatch op .double v.describe)

def popBoolean (op : String) (f : Frame) : Except Fault (Bool × Frame) := do
  match ← f.pop with
  | (.boolean b, f) => .ok (b, f)
  | (v, _) => .error (.typeMismatch op .boolean v.describe)

def load (slot : Nat) (f : Frame) : Except Fault Value :=
  match f.locals[slot]? with
  | some (some v) => .ok v
  | some none => .error (.uninitializedLocal slot)
  | none => .error (.slotOutOfRange slot)

def store (slot : Nat) (v : Value) (f : Frame) : Except Fault Frame :=
  if slot < f.locals.size then .ok { f with locals := f.locals.setIfInBounds slot (some v) }
  else .error (.slotOutOfRange slot)

end Frame

/-- What follows an operation. -/
inductive Effect where
  /-- Go on with the next operation. -/
  | next (f : Frame)
  /-- Go on at a label. -/
  | goto (l : Label) (f : Frame)
  | halt (f : Frame)
  /-- Push a static field, then go on. -/
  | readStatic (owner name : String) (ty : Ty) (f : Frame)
  /-- Call a host function with the arguments taken from the stack, push its
      result if there is one, then go on. -/
  | invoke (target : String) (args : List Value) (returns : Ty) (f : Frame)

/-- The unboxed type that boxes to a class. -/
def HeapClass.unboxed : HeapClass → Ty
  | .double => .double
  | .boolean => .boolean
  | c => .ref c

namespace Op

def effect (limit : Nat) (op : Op) (f : Frame) : Except Fault Effect :=
  match op with
  | .const c => .next <$> f.push limit (Value.ofConst c)
  | .pop => do
    let (_, f) ← f.pop
    return .next f
  | .dup => do .next <$> f.push limit (← f.top)
  | .load slot _ => do .next <$> f.push limit (← f.load slot)
  | .store slot ty => do
    let (v, f) ← f.pop
    if v.conforms ty then .next <$> f.store slot v
    else .error (.typeMismatch "store" ty v.describe)
  | .instanceOf c => do
    match ← f.pop with
    | (.ref (some object), f) => .next <$> f.push limit (.boolean (object.heapClass.isSubclass c))
    | (.ref none, f) => .next <$> f.push limit (.boolean false)
    | (v, _) => .error (.typeMismatch "instanceof" (.ref .object) v.describe)
  | .checkCast c => do
    let v ← f.top
    if v.conforms (.ref c) then .ok (.next f) else .error (.classCast c v.describe)
  | .box c => do
    match c, ← f.pop with
    | .double, (.double x, f) => .next <$> f.push limit (.ref (some (.double x)))
    | .boolean, (.boolean b, f) => .next <$> f.push limit (.ref (some (.boolean b)))
    | c, (v, _) => .error (.typeMismatch "box" c.unboxed v.describe)
  | .unbox c => do
    match c, ← f.pop with
    -- a missing object is told from one of another class
    | _, (.ref none, _) => .error .nullReference
    | .double, (.ref (some (.double x)), f) => .next <$> f.push limit (.double x)
    | .boolean, (.ref (some (.boolean b)), f) => .next <$> f.push limit (.boolean b)
    | c, (v, _) => .error (.classCast c v.describe)
  | .arith op => do
    let (y, f) ← f.popDouble "arith"
    let (x, f) ← f.popDouble "arith"
    .next <$> f.push limit (.double (op.eval x y))
  | .compare op => do
    let (y, f) ← f.popDouble "compare"
    let (x, f) ← f.popDouble "compare"
    .next <$> f.push limit (.boolean (op.eval x y))
  | .not => do
    let (b, f) ← f.popBoolean "not"
    .next <$> f.push limit (.boolean !b)
  | .label _ => .ok (.next f)
  | .jump l => .ok (.goto l f)
  | .jumpIf l => do
    let (b, f) ← f.popBoolean "jumpif"
    return if b then .goto l f else .next f
  | .jumpUnless l => do
    let (b, f) ← f.popBoolean "jumpunless"
    return if b then .next f else .goto l f
  | .getStatic owner name ty => .ok (.readStatic owner name ty f)
  | .invoke target argc returns =>
    match f.stack.take? argc with
    | some (args, stack) => .ok (.invoke target args returns { f with stack })
    | none => .error .stackUnderflow
  | .ret => .ok (.halt f)

end Op

/-! ## Machines -/

/-- A program that may be run: it fits the limits, its labels are defined
    once each. -/
structure Machine where
  limits : Limits
  program : Program
  /-- The operations of the program, for access by position. -/
  code : Array Op
  /-- Where each label is defined. -/
  positions : Positions

/-- Where a run stands. -/
structure Machine.State where
  pc : Nat
  steps : Nat
  frame : Frame
  deriving DecidableEq, Repr

/-- What a finished run leaves: the stack, bottom first, and the number of
    operations that were executed. -/
structure Outcome where
  stack : List Value
  steps : Nat
  deriving DecidableEq, Repr

/-- The value on top of the stack. -/
def Outcome.top? (o : Outcome) : Option Value := o.stack.getLast?

namespace Machine

def load (limits : Limits) (p : Program) : Except Fault Machine :=
  if limits.locals < p.locals then .error (.tooManyLocals p.locals limits.locals)
  else
    match p.positions with
    | .error l => .error (.duplicateLabel l)
    | .ok positions =>
      match p.undefinedLabel? positions with
      | some l => .error (.unknownLabel l)
      | none => .ok ⟨limits, p, p.ops.toArray, positions⟩

def start (m : Machine) : State := ⟨0, 0, ⟨.empty, Array.replicate m.program.locals none⟩⟩

def State.outcome (s : State) : Outcome := ⟨s.frame.stack.values.reverse, s.steps⟩

/-- A state to go on from, or the last one. -/
inductive Progress where
  | running (s : State)
  | halted (s : State)

/-- Executes an operation, asking the host where the operation does. -/
def step {σ : Type} (m : Machine) (host : Host σ) (op : Op) (s : State) (w : σ) :
    Except Fault Progress × σ :=
  let ⟨pc, steps, frame⟩ := s
  let advance (f : Frame) : Progress := .running ⟨pc + 1, steps + 1, f⟩
  match op.effect m.limits.stack frame with
  | .error fault => (.error fault, w)
  | .ok (.next f) => (.ok (advance f), w)
  | .ok (.goto l f) =>
    match m.positions[l]? with
    | some target => (.ok (.running ⟨target, steps + 1, f⟩), w)
    | none => (.error (.unknownLabel l), w)
  | .ok (.halt f) => (.ok (.halted ⟨pc, steps + 1, f⟩), w)
  | .ok (.readStatic owner name ty f) =>
    match host.readStatic owner name w with
    | (.error fault, w) => (.error fault, w)
    | (.ok v, w) =>
      if v.conforms ty then (advance <$> f.push m.limits.stack v, w)
      else (.error (.typeMismatch "getstatic" ty v.describe), w)
  | .ok (.invoke target args returns f) =>
    match host.invoke target args returns w with
    | (.error fault, w) => (.error fault, w)
    | (.ok none, w) =>
      -- a host may leave out the result only of a call that has none
      if returns = .void then (.ok (advance f), w)
      else (.error (.badHostResult target returns "nothing"), w)
    | (.ok (some v), w) =>
      if v.conforms returns then (advance <$> f.push m.limits.stack v, w)
      else (.error (.badHostResult target returns v.describe), w)

/-- Runs from a state, with so many steps left. -/
def run {σ : Type} (m : Machine) (host : Host σ) : Nat → State → σ → Except Fault Outcome × σ
  | 0, s, w =>
    match m.code[s.pc]? with
    | none => (.ok s.outcome, w)
    | some _ => (.error (.stepLimit m.limits.steps), w)
  | left + 1, s, w =>
    match m.code[s.pc]? with
    | none => (.ok s.outcome, w)
    | some op =>
      match m.step host op s w with
      | (.error fault, w) => (.error fault, w)
      | (.ok (.halted s), w) => (.ok s.outcome, w)
      | (.ok (.running s), w) => m.run host left s w

end Machine

/-- Loads a program and runs it to its end. -/
def Program.run {σ : Type} (p : Program) (limits : Limits) (host : Host σ) (w : σ) :
    Except Fault Outcome × σ :=
  match Machine.load limits p with
  | .error fault => (.error fault, w)
  | .ok m => m.run host limits.steps m.start w

end FlowGraph
