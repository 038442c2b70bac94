import FlowGraph.Json.Printer
import FlowGraph.Text.Quoted

/-! # Literals

    A value that an author typed in. Whole numbers that fit 64 bits stay
    integers; they stand for the nearest double where a number is needed.
-/

namespace FlowGraph

inductive Literal where
  | null
  | boolean (b : Bool)
  | integer (n : Int)
  | number (x : Double)
  | text (s : String)
  deriving DecidableEq, Repr

namespace Literal

def display : Literal → String
  | .null => "null"
  | .boolean b => if b then "true" else "false"
  | .integer n => toString n
  | .number x => x.literalText
  | .text s => Text.quoted s

/-- The number that a literal stands for. -/
def number? : Literal → Option Double
  | .integer n => some (Double.ofInt n)
  | .number x => some x
  | _ => none

def toJson (l : Literal) (numbers : Json.Numbers := .standard) : Json :=
  match l with
  | .null => .null
  | .boolean b => .boolean b
  | .integer n => .integer n
  | .number x => .ofDouble numbers x
  | .text s => .text s

def ofJson? (j : Json) (numbers : Json.Numbers := .standard) : Option Literal :=
  match j with
  | .null => some .null
  | .boolean b => some (.boolean b)
  | .integer n =>
    if -0x8000000000000000 ≤ n ∧ n < 0x8000000000000000 then some (.integer n)
    else ((Json.integer n).double? numbers).map .number
  | .string s => s.map .text
  | j => (j.double? numbers).map .number

end Literal

end FlowGraph
