/-! # Types of the stack machine

    A stack entry is an unboxed number, an unboxed truth value, or a
    reference to an object of a class. `Object` is above every class; the
    other classes are unrelated.
-/

namespace FlowGraph

/-- The classes of heap objects. -/
inductive HeapClass where
  | object
  | double
  | boolean
  | text
  deriving DecidableEq, Repr

namespace HeapClass

def name : HeapClass → String
  | .object => "Object"
  | .double => "Double"
  | .boolean => "Boolean"
  | .text => "Text"

/-- An object of class `c` is also one of class `d`. -/
def isSubclass (c d : HeapClass) : Bool := d == .object || c == d

end HeapClass

/-- The type of a stack entry; `void` is the type of code that leaves none. -/
inductive Ty where
  | void
  | double
  | boolean
  | ref (c : HeapClass)
  deriving DecidableEq, Repr

namespace Ty

def text : Ty → String
  | .void => "void"
  | .double => "double"
  | .boolean => "boolean"
  | .ref c => "ref " ++ c.name

/-- How a type is named where a value of it was expected. -/
def shortName : Ty → String
  | .ref c => c.name
  | ty => ty.text

def isValue (ty : Ty) : Bool := ty != .void

def heapClass? : Ty → Option HeapClass
  | .ref c => some c
  | _ => none

def isReference (ty : Ty) : Bool := ty.heapClass?.isSome

end Ty

end FlowGraph
