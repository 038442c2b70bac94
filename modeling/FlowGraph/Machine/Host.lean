import FlowGraph.Machine.Fault
import FlowGraph.Machine.Value

/-! # Hosts

    A program reaches the outside through its host, which answers calls and
    reads of static fields. A host is a pair of pure steps on a state of
    its own, so it may answer by what happened before.

    `Script` is the host that tests and the command line use: prepared
    answers, and a record of every call.
-/

namespace FlowGraph

structure Host (σ : Type) where
  /-- Calls a function with its arguments, first argument first. The type is
      the one that the program expects back. -/
  invoke : String → List Value → Ty → σ → Except Fault (Option Value) × σ
  /-- Reads a field of an owner. -/
  readStatic : String → String → σ → Except Fault Value × σ

/-- One call of a host function. -/
structure HostCall where
  target : String
  args : List Value
  deriving DecidableEq, Repr

namespace HostCall

def display (call : HostCall) : String :=
  call.target ++ "(" ++ String.intercalate ", " (call.args.map Value.display) ++ ")"

end HostCall

/-- Prepared answers, the latest first, and the calls so far in order. -/
structure Script where
  answers : List (String × Value)
  statics : List ((String × String) × Value)
  calls : Array HostCall

namespace Script

def pi : Double := ⟨0x400921fb54442d18⟩

def e : Double := ⟨0x4005bf0a8b145769⟩

/-- No answers; the fields `Math.PI` and `Math.E`. -/
def empty : Script where
  answers := []
  statics := [(("Math", "PI"), .double pi), (("Math", "E"), .double e)]
  calls := #[]

/-- The function answers with this value from now on. -/
def answer (s : Script) (target : String) (v : Value) : Script :=
  { s with answers := (target, v) :: s.answers }

/-- The field has this value from now on. -/
def setStatic (s : Script) (owner name : String) (v : Value) : Script :=
  { s with statics := ((owner, name), v) :: s.statics }

/-- Records the call. One that expects nothing gets nothing, else the answer
    is the prepared one or the zero of the expected type. -/
def invoke (target : String) (args : List Value) (returns : Ty) (s : Script) :
    Option Value × Script :=
  let result :=
    match returns with
    | .void => none
    | ty => (s.answers.lookup target).or (Value.zero? ty)
  (result, { s with calls := s.calls.push ⟨target, args⟩ })

def readStatic (owner name : String) (s : Script) : Except Fault Value :=
  match s.statics.lookup (owner, name) with
  | some v => .ok v
  | none => .error (.unknownStatic owner name)

def host : Host Script where
  invoke target args returns s :=
    let (result, s) := s.invoke target args returns
    (.ok result, s)
  readStatic owner name s := (s.readStatic owner name, s)

/-- The calls of one function. -/
def callsTo (s : Script) (target : String) : Array HostCall :=
  s.calls.filter fun call => call.target == target

end Script

end FlowGraph
