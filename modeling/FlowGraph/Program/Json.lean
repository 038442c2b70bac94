import FlowGraph.Json.Printer
import FlowGraph.Json.Reader
import FlowGraph.Program.Basic

/-! # Programs as JSON

    Each type of a program has a JSON form and a reader for it. An
    alternative without data is its name, one with data an object under its
    name; a number constant is written as the integer of its bits.

    Slots, labels and the number of locals are 32-bit, the number of
    arguments of a call is 8-bit; the readers refuse what does not fit.
-/

namespace FlowGraph

/-! ## Types and constants -/

namespace HeapClass

def toJson (c : HeapClass) : Json := .text c.name

def ofJson? (j : Json) : Option HeapClass :=
  match j.alternative? with
  | some ("Object", none) | some ("Object", some .null) => some .object
  | some ("Double", none) | some ("Double", some .null) => some .double
  | some ("Boolean", none) | some ("Boolean", some .null) => some .boolean
  | some ("Text", none) | some ("Text", some .null) => some .text
  | _ => none

end HeapClass

namespace Ty

def toJson : Ty → Json
  | .void => .text "Void"
  | .double => .text "Double"
  | .boolean => .text "Boolean"
  | .ref c => .tagged "Ref" c.toJson

def ofJson? (j : Json) : Option Ty :=
  match j.alternative? with
  | some ("Void", none) | some ("Void", some .null) => some .void
  | some ("Double", none) | some ("Double", some .null) => some .double
  | some ("Boolean", none) | some ("Boolean", some .null) => some .boolean
  | some ("Ref", some c) => (HeapClass.ofJson? c).map .ref
  | _ => none

end Ty

namespace Const

def toJson : Const → Json
  | .null => .text "Null"
  | .number x => .tagged "Number" (.nat x.bits.toNat)
  | .boolean b => .tagged "Boolean" (.boolean b)
  | .text s => .tagged "Text" (.text s)

def ofJson? (j : Json) : Option Const :=
  match j.alternative? with
  | some ("Null", none) | some ("Null", some .null) => some .null
  | some ("Number", some n) => (n.nat? UInt64.size).map fun n => .number ⟨UInt64.ofNat n⟩
  | some ("Boolean", some b) => b.boolean?.map .boolean
  | some ("Text", some s) => s.text?.map .text
  | _ => none

end Const

/-! ## Operations -/

namespace Arith

def toJson : Arith → Json
  | .add => .text "Add"
  | .sub => .text "Sub"
  | .mul => .text "Mul"
  | .div => .text "Div"

def ofJson? (j : Json) : Option Arith :=
  match j.alternative? with
  | some ("Add", none) | some ("Add", some .null) => some .add
  | some ("Sub", none) | some ("Sub", some .null) => some .sub
  | some ("Mul", none) | some ("Mul", some .null) => some .mul
  | some ("Div", none) | some ("Div", some .null) => some .div
  | _ => none

end Arith

namespace Comparison

def toJson : Comparison → Json
  | .lt => .text "Lt"
  | .gt => .text "Gt"
  | .eq => .text "Eq"

def ofJson? (j : Json) : Option Comparison :=
  match j.alternative? with
  | some ("Lt", none) | some ("Lt", some .null) => some .lt
  | some ("Gt", none) | some ("Gt", some .null) => some .gt
  | some ("Eq", none) | some ("Eq", some .null) => some .eq
  | _ => none

end Comparison

namespace Op

def toJson : Op → Json
  | .const c => .tagged "Const" c.toJson
  | .pop => .text "Pop"
  | .dup => .text "Dup"
  | .load slot ty => .tagged "Load" (.record [("slot", .nat slot), ("ty", ty.toJson)])
  | .store slot ty => .tagged "Store" (.record [("slot", .nat slot), ("ty", ty.toJson)])
  | .instanceOf c => .tagged "InstanceOf" c.toJson
  | .checkCast c => .tagged "CheckCast" c.toJson
  | .box c => .tagged "Box" c.toJson
  | .unbox c => .tagged "Unbox" c.toJson
  | .arith op => .tagged "Arith" op.toJson
  | .compare op => .tagged "Compare" op.toJson
  | .not => .text "Not"
  | .label l => .tagged "Label" (.nat l)
  | .jump l => .tagged "Jump" (.nat l)
  | .jumpIf l => .tagged "JumpIf" (.nat l)
  | .jumpUnless l => .tagged "JumpUnless" (.nat l)
  | .getStatic owner name ty =>
    .tagged "GetStatic" (.record [("owner", .text owner), ("name", .text name), ("ty", ty.toJson)])
  | .invoke target argc returns =>
    .tagged "Invoke"
      (.record [("target", .text target), ("argc", .nat argc), ("returns", returns.toJson)])
  | .ret => .text "Return"

/-- A slot and its type. -/
def slotOfJson? (j : Json) : Option (Nat × Ty) := do
  let [slot, ty] ← j.fields? ["slot", "ty"] | none
  return (← (← slot).nat? UInt32.size, ← Ty.ofJson? (← ty))

def ofJson? (j : Json) : Option Op :=
  match j.alternative? with
  | some ("Const", some c) => (Const.ofJson? c).map .const
  | some ("Pop", none) | some ("Pop", some .null) => some .pop
  | some ("Dup", none) | some ("Dup", some .null) => some .dup
  | some ("Load", some s) => (slotOfJson? s).map fun (slot, ty) => .load slot ty
  | some ("Store", some s) => (slotOfJson? s).map fun (slot, ty) => .store slot ty
  | some ("InstanceOf", some c) => (HeapClass.ofJson? c).map .instanceOf
  | some ("CheckCast", some c) => (HeapClass.ofJson? c).map .checkCast
  | some ("Box", some c) => (HeapClass.ofJson? c).map .box
  | some ("Unbox", some c) => (HeapClass.ofJson? c).map .unbox
  | some ("Arith", some op) => (Arith.ofJson? op).map .arith
  | some ("Compare", some op) => (Comparison.ofJson? op).map .compare
  | some ("Not", none) | some ("Not", some .null) => some .not
  | some ("Label", some l) => (l.nat? UInt32.size).map .label
  | some ("Jump", some l) => (l.nat? UInt32.size).map .jump
  | some ("JumpIf", some l) => (l.nat? UInt32.size).map .jumpIf
  | some ("JumpUnless", some l) => (l.nat? UInt32.size).map .jumpUnless
  | some ("GetStatic", some s) => do
    let [owner, name, ty] ← s.fields? ["owner", "name", "ty"] | none
    return .getStatic (← (← owner).text?) (← (← name).text?) (← Ty.ofJson? (← ty))
  | some ("Invoke", some s) => do
    let [target, argc, returns] ← s.fields? ["target", "argc", "returns"] | none
    return .invoke (← (← target).text?) (← (← argc).nat? UInt8.size) (← Ty.ofJson? (← returns))
  | some ("Return", none) | some ("Return", some .null) => some .ret
  | _ => none

end Op

/-! ## Programs -/

namespace Program

def toJson (p : Program) : Json :=
  .record [("ops", .array (p.ops.map Op.toJson)), ("max_locals", .nat p.locals)]

def ofJson? (j : Json) : Option Program := do
  let [ops, locals] ← j.fields? ["ops", "max_locals"] | none
  return ⟨← (← ops).list? Op.ofJson?, ← (← locals).nat? UInt32.size⟩

/-- The program as a JSON document, ending with a line break. -/
def jsonText (p : Program) : String := p.toJson.pretty ++ "\n"

/-- The program that a JSON document holds. -/
def ofJsonText? (s : String) : Option Program := do ofJson? (← Json.parse? s)

end Program

end FlowGraph
