import FlowGraph.Op.Const

/-! # Values of the machine

    What a stack entry or a local slot holds: an unboxed double or truth
    value, or a reference, which may be null.
-/

namespace FlowGraph

/-- A heap object. Objects never change, so a reference is its object. -/
inductive Object where
  | double (x : Double)
  | boolean (b : Bool)
  | text (s : String)
  deriving DecidableEq, Repr

namespace Object

def heapClass : Object → HeapClass
  | .double _ => .double
  | .boolean _ => .boolean
  | .text _ => .text

def display : Object → String
  | .double x => x.plainText
  | .boolean b => if b then "true" else "false"
  | .text s => s

/-- Equality by content, numbers compared as numbers. -/
def equal : Object → Object → Bool
  | .double x, .double y => x.eq y
  | .boolean a, .boolean b => a == b
  | .text s, .text t => s == t
  | _, _ => false

end Object

inductive Value where
  | double (x : Double)
  | boolean (b : Bool)
  | ref (object : Option Object)
  deriving DecidableEq, Repr

namespace Value

def null : Value := .ref none

def text (s : String) : Value := .ref (some (.text s))

def ofConst : Const → Value
  | .null => null
  | .number x => .double x
  | .boolean b => .boolean b
  | .text s => text s

/-- The value of a type before anything is stored. -/
def zero? (ty : Ty) : Option Value := (Const.zero? ty).map ofConst

/-- The class of the object that a reference leads to. -/
def heapClass? : Value → Option HeapClass
  | .ref (some object) => some object.heapClass
  | _ => none

/-- The value may stand where the type is asked for; null is of every
    reference type. -/
def conforms : Value → Ty → Bool
  | .double _, .double => true
  | .boolean _, .boolean => true
  | .ref none, .ref _ => true
  | .ref (some object), .ref c => object.heapClass.isSubclass c
  | _, _ => false

/-- What the value is, for a message. -/
def describe : Value → String
  | .double _ => "double"
  | .boolean _ => "boolean"
  | .ref none => "null"
  | .ref (some object) => object.heapClass.name

def display : Value → String
  | .double x => x.plainText
  | .boolean b => if b then "true" else "false"
  | .ref none => "null"
  | .ref (some object) => object.display

/-- Equality by content, numbers compared as numbers. -/
def equal : Value → Value → Bool
  | .double x, .double y => x.eq y
  | .boolean a, .boolean b => a == b
  | .ref none, .ref none => true
  | .ref (some o), .ref (some p) => o.equal p
  | _, _ => false

end Value

end FlowGraph
