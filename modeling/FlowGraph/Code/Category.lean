import FlowGraph.Code.Basic

/-! # Categories of data

    What travels through a port: a signal, or a number, condition or text.

    A value has two forms. In its **native** form it is of the machine type
    that its category computes with; in its **boxed** form it is a
    reference, as variables hold it. `wrap` and `cast` convert; a cast takes
    any reference and gives the category's default for one of another class.
-/

namespace FlowGraph

inductive Category where
  | signal
  | number
  | condition
  | text
  deriving DecidableEq, Repr

namespace Category

def name : Category → String
  | .signal => "signal"
  | .number => "number"
  | .condition => "condition"
  | .text => "text"

def ofName? : String → Option Category
  | "signal" => some .signal
  | "number" => some .number
  | "condition" => some .condition
  | "text" => some .text
  | _ => none

def isSignal (c : Category) : Bool := c == .signal

/-- The categories that carry data. -/
def values : List Category := [.number, .condition, .text]

/-- The class of a boxed value. -/
def heapClass : Category → HeapClass
  | .signal => .object
  | .number => .double
  | .condition => .boolean
  | .text => .text

def native : Category → Ty
  | .signal => .void
  | .number => .double
  | .condition => .boolean
  | .text => .ref .text

def boxed (c : Category) : Ty := .ref c.heapClass

/-- The value of an input that is neither connected nor typed in. -/
def default? : Category → Option Const
  | .signal => none
  | .number => some (.number .zero)
  | .condition => some (.boolean false)
  | .text => some (.text "")

/-! ## Literals -/

/-- The constant that a literal stands for in a category. -/
def literal? : Category → Literal → Option Const
  | .signal, _ => none
  | .number, literal => literal.number?.map .number
  | .condition, .boolean b => some (.boolean b)
  | .text, .text s => some (.text s)
  | _, _ => none

/-- Code for a literal in native form; a literal of another category counts
    as the default. -/
def load (c : Category) (literal : Literal) : Code :=
  match (c.literal? literal).or c.default? with
  | some constant => Code.const constant
  | none => Code.empty

/-! ## Conversions -/

/-- From native to boxed form. A signal leaves null. -/
def wrap (c : Category) (value : Code) : Code :=
  match c with
  | .signal => .block (.ref .object) [value, .const .null]
  | .text => value
  | _ => .block c.boxed [value, .op (.box c.heapClass) c.boxed]

/-- Replaces the reference on top of the stack by the value in it, or by the
    default if it is of another class. -/
def castOps (c : Category) (default : Const) : List Op :=
  [.dup, .instanceOf c.heapClass, .jumpIf 1, .pop, .const default, .jump 0, .label 1,
    .checkCast c.heapClass] ++
  (if c = .text then [] else [.unbox c.heapClass]) ++
  [.label 0]

/-- From any reference to native form. To a signal, nothing is left. -/
def cast (c : Category) (value : Code) : Code :=
  match c.default? with
  | none => .block .void [value, .op .pop .void]
  | some default => .block c.native [value, .raw c.native (c.castOps default)]

end Category

/-- The form of the values of a port. -/
inductive Form where
  | native
  | boxed
  deriving DecidableEq, Repr

end FlowGraph
