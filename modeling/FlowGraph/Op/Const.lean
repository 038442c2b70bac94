import FlowGraph.Double.Layout
import FlowGraph.Op.Ty
import FlowGraph.Text.Quoted

/-! # Constants

    The constants that code can push. A number is kept with all its bits.
-/

namespace FlowGraph

inductive Const where
  | null
  | number (x : Double)
  | boolean (b : Bool)
  | text (s : String)
  deriving DecidableEq, Repr

namespace Const

def ty : Const → Ty
  | .null => .ref .object
  | .number _ => .double
  | .boolean _ => .boolean
  | .text _ => .ref .text

def number? : Const → Option Double
  | .number x => some x
  | _ => none

/-- How a constant is shown in a listing. -/
def display : Const → String
  | .null => "null"
  | .number x => x.literalText
  | .boolean b => if b then "true" else "false"
  | .text s => Text.quoted s

/-- The constant that a value of a type has before anything is stored. -/
def zero? : Ty → Option Const
  | .void => none
  | .double => some (.number .zero)
  | .boolean => some (.boolean false)
  | .ref _ => some .null

end Const

end FlowGraph
