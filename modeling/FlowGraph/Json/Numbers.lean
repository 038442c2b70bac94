import FlowGraph.Double.Layout
import FlowGraph.Double.Nearest

/-! # Numbers of JSON text

    The grammar of JSON says how a number is written, but not which double a
    numeral stands for, nor which numeral is written for a double. Both are a
    choice of the reader and the printer, so what is read or written takes
    this choice as a parameter.

    The usual choice is `standard`. Its reader is quick and not exact: it
    rounds the digits and a second time the product with a power of ten, and
    may miss the nearest double by a unit.
-/

namespace FlowGraph

/-- Numbers in JSON text: positional from `1e-5` up to `1e16`, always with a
    fraction. -/
def Layout.json : Layout := ⟨fun e => -5 ≤ e && e < 16, true, ['+'], .even⟩

namespace Json

/-- How doubles are read and written. -/
structure Numbers where
  /-- The double that a numeral stands for. Too large a number has none. -/
  read? : Numeral → Option Double
  /-- The numeral of a finite double. -/
  write : Double → Numeral

namespace Numbers

/-! ## Reading -/

/-- Puts digits behind a number as long as it fits 64 bits, and counts them. -/
def gather : List Char → Nat → Nat × Nat
  | [], n => (n, 0)
  | c :: cs, n =>
    let next := 10 * n + (c.toNat - '0'.toNat)
    if next < UInt64.size then
      let (n, count) := gather cs next
      (n, count + 1)
    else (n, 0)

def powerOfTen (exponent : Nat) : Double := .ofInt (Nat.pow 10 exponent)

/-- The quotient by a power of ten. The powers that are doubles end at 308. -/
def shrink (x : Double) (exponent : Nat) : Double :=
  if exponent ≤ 308 then x.div (powerOfTen exponent)
  else if x.eq .zero then x
  else shrink (x.div (powerOfTen 308)) (exponent - 308)
termination_by exponent

/-- The product with a power of ten, unless it is too large. -/
def enlarge? (x : Double) (exponent : Nat) : Option Double :=
  if exponent ≤ 308 then
    let y := x.mul (powerOfTen exponent)
    if y.isFinite then some y else none
  else if x.eq .zero then some x
  else none

/-- Digits that do not fit count as zeros before the point, and not at all
    behind it. -/
def readUnsigned? (n : Numeral) : Option Double :=
  let (whole, taken) := gather n.whole 0
  let (digits, places) := gather n.fraction whole
  let exponent : Int := n.exponent.getD 0 + (n.whole.length - taken : Nat) - places
  if 0 ≤ exponent then enlarge? (.ofInt digits) exponent.toNat
  else some (shrink (.ofInt digits) (-exponent).toNat)

/-! ## Writing -/

/-- The digits of the shortest decimal. -/
def shortest (x : Double) : Numeral :=
  match x.magnitude with
  | .finite mantissa scale => Layout.json.numeral x.isNegative (Double.shortest Layout.json.tie mantissa scale)
  | _ => ⟨x.isNegative, ['0'], [], none⟩

def standard : Numbers where
  read? n := (readUnsigned? n).map fun x => .withSign n.negative x.bits.toNat
  write := shortest

end Numbers

end Json

end FlowGraph
