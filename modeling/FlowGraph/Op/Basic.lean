import FlowGraph.Op.Const

/-! # Operations

    The operations of the stack machine. Jumps name symbolic labels, which
    a `label` operation defines; it does nothing else.
-/

namespace FlowGraph

/-- Arithmetic on two doubles. -/
inductive Arith where
  | add
  | sub
  | mul
  | div
  deriving DecidableEq, Repr

namespace Arith

def mnemonic : Arith → String
  | .add => "add"
  | .sub => "sub"
  | .mul => "mul"
  | .div => "div"

def eval : Arith → Double → Double → Double
  | .add => Double.add
  | .sub => Double.sub
  | .mul => Double.mul
  | .div => Double.div

end Arith

/-- Comparison of two doubles. -/
inductive Comparison where
  | lt
  | gt
  | eq
  deriving DecidableEq, Repr

namespace Comparison

def mnemonic : Comparison → String
  | .lt => "cmplt"
  | .gt => "cmpgt"
  | .eq => "cmpeq"

def eval : Comparison → Double → Double → Bool
  | .lt, x, y => x.lt y
  | .gt, x, y => y.lt x
  | .eq, x, y => x.eq y

end Comparison

/-- A symbolic jump target. -/
abbrev Label := Nat

inductive Op where
  | const (c : Const)
  | pop
  | dup
  | load (slot : Nat) (ty : Ty)
  | store (slot : Nat) (ty : Ty)
  | instanceOf (c : HeapClass)
  | checkCast (c : HeapClass)
  | box (c : HeapClass)
  | unbox (c : HeapClass)
  | arith (op : Arith)
  | compare (op : Comparison)
  | not
  | label (l : Label)
  | jump (l : Label)
  | jumpIf (l : Label)
  | jumpUnless (l : Label)
  | getStatic (owner name : String) (ty : Ty)
  | invoke (target : String) (argc : Nat) (returns : Ty)
  | ret
  deriving DecidableEq, Repr

namespace Op

/-! ## Labels -/

/-- The label that an operation defines. -/
def defines? : Op → Option Label
  | .label l => some l
  | _ => none

/-- The label that an operation jumps to. -/
def references? : Op → Option Label
  | .jump l => some l
  | .jumpIf l => some l
  | .jumpUnless l => some l
  | _ => none

/-- The label that an operation names, defined or jumped to. -/
def label? (op : Op) : Option Label := op.defines?.or op.references?

def isLabel (op : Op) : Bool := op.defines?.isSome

/-- The operation with its label renamed. -/
def relabel (f : Label → Label) : Op → Op
  | .label l => .label (f l)
  | .jump l => .jump (f l)
  | .jumpIf l => .jumpIf (f l)
  | .jumpUnless l => .jumpUnless (f l)
  | op => op

/-! ## Text -/

def labelText (l : Label) : String := "L" ++ toString l

/-- The line of an operation in a listing, without indentation. -/
def display : Op → String
  | .const c => "const " ++ c.display
  | .pop => "pop"
  | .dup => "dup"
  | .load slot ty => s!"load {slot} ({ty.text})"
  | .store slot ty => s!"store {slot} ({ty.text})"
  | .instanceOf c => "instanceof " ++ c.name
  | .checkCast c => "checkcast " ++ c.name
  | .box c => "box " ++ c.name
  | .unbox c => "unbox " ++ c.name
  | .arith op => op.mnemonic
  | .compare op => op.mnemonic
  | .not => "not"
  | .label l => labelText l ++ ":"
  | .jump l => "jump " ++ labelText l
  | .jumpIf l => "jumpif " ++ labelText l
  | .jumpUnless l => "jumpunless " ++ labelText l
  | .getStatic owner name ty => s!"getstatic {owner}.{name} ({ty.text})"
  | .invoke target argc returns => s!"invoke {target}/{argc} ({returns.text})"
  | .ret => "return"

end Op

end FlowGraph
