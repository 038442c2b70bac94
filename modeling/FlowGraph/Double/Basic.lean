/-! # Doubles

    Numbers are binary64 values, kept as their 64 bits.

    * **Equality** of two doubles is equality of bits, so it tells `0.0`
      from `-0.0` and holds of a NaN and itself.
    * **Arithmetic** and **order** are those of the hardware: `eq` and `lt`
      follow IEEE 754, where a NaN differs from everything.
    * **`Magnitude`** is the exact reading of the bits that the text forms
      are computed from.
-/

namespace FlowGraph

/-- A binary64 number, given by its bits. -/
structure Double where
  bits : UInt64
  deriving DecidableEq, Repr, Inhabited

namespace Double

/-! ## Arithmetic -/

def toFloat (x : Double) : Float := Float.ofBits x.bits

def ofFloat (x : Float) : Double := ⟨x.toBits⟩

def zero : Double := ⟨0⟩

def one : Double := ⟨0x3ff0000000000000⟩

def infinity : Double := ⟨0x7ff0000000000000⟩

def nan : Double := ⟨0x7ff8000000000000⟩

def add (x y : Double) : Double := ofFloat (x.toFloat + y.toFloat)

def sub (x y : Double) : Double := ofFloat (x.toFloat - y.toFloat)

def mul (x y : Double) : Double := ofFloat (x.toFloat * y.toFloat)

def div (x y : Double) : Double := ofFloat (x.toFloat / y.toFloat)

/-- Numeric order; false as soon as one side is a NaN. -/
def lt (x y : Double) : Bool := decide (x.toFloat < y.toFloat)

/-- Numeric equality: the two zeros are equal, a NaN equals nothing. -/
def eq (x y : Double) : Bool := x.toFloat == y.toFloat

/-! ## Reading the bits -/

/-- What the bits of a double say apart from its sign. -/
inductive Magnitude where
  | nan
  | infinite
  /-- The number `mantissa * 2 ^ scale`. -/
  | finite (mantissa : Nat) (scale : Int)
  deriving DecidableEq, Repr

/-- The weight of the top bit, which holds the sign. -/
def signWeight : Nat := 0x8000000000000000

/-- The weight of the lowest bit of the exponent. It is also the weight of
    the leading bit of a mantissa, which the bits leave out. -/
def exponentWeight : Nat := 0x10000000000000

def isNegative (x : Double) : Bool := signWeight ≤ x.bits.toNat

/-- The eleven bits of the exponent, as written. -/
def exponentField (x : Double) : Nat := x.bits.toNat / exponentWeight % 2048

/-- The fifty-two bits of the fraction, as written. -/
def fractionField (x : Double) : Nat := x.bits.toNat % exponentWeight

def magnitude (x : Double) : Magnitude :=
  if x.exponentField = 2047 then
    if x.fractionField = 0 then .infinite else .nan
  else if x.exponentField = 0 then
    .finite x.fractionField (-1074)
  else
    .finite (exponentWeight + x.fractionField) (x.exponentField - 1075)

def isNaN (x : Double) : Bool := x.exponentField == 2047 && x.fractionField != 0

/-- Neither infinite nor a NaN. -/
def isFinite (x : Double) : Bool := x.exponentField != 2047

/-- The double with these bits below the sign. -/
def withSign (negative : Bool) (below : Nat) : Double :=
  ⟨UInt64.ofNat (if negative then signWeight + below else below)⟩

end Double

end FlowGraph
