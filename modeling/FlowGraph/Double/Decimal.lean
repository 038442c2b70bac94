/-! # Decimals

    A decimal is a whole number of digits and a power of ten. Many pairs
    name one number; `normalize` picks the one without final zeros.
-/

namespace FlowGraph

/-- The number `digits * 10 ^ exponent`. -/
structure Decimal where
  digits : Nat
  exponent : Int
  deriving DecidableEq, Repr

namespace Decimal

/-- Moves final zeros of the digits into the exponent, at most `count`. -/
def dropZeros : Nat → Decimal → Decimal
  | 0, d => d
  | count + 1, d =>
    if d.digits % 10 = 0 then dropZeros count ⟨d.digits / 10, d.exponent + 1⟩ else d

/-- The same number without final zeros. A number has fewer of them than it
    has binary digits. -/
def normalize (d : Decimal) : Decimal :=
  if d.digits = 0 then ⟨0, 0⟩ else d.dropZeros d.digits.log2

/-- The digits as text. -/
def digitText (d : Decimal) : List Char := Nat.toDigits 10 d.digits

/-- The exponent of the first digit. -/
def leading (d : Decimal) : Int := d.exponent + d.digitText.length - 1

end Decimal

end FlowGraph
