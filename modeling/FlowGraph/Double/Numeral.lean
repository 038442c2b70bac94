/-! # Numerals

    A number as it is written: a sign, digits, a point with digits behind it,
    an exponent. Nothing is rounded here; `12.50` and `12.5` are two numerals.
-/

namespace FlowGraph

structure Numeral where
  negative : Bool
  /-- The digits before the point. -/
  whole : List Char
  /-- The digits behind the point, which is left out if there are none. -/
  fraction : List Char
  exponent : Option Int
  deriving DecidableEq, Repr

namespace Numeral

def signText (n : Numeral) : List Char := if n.negative then ['-'] else []

def fractionText (n : Numeral) : List Char := if n.fraction.isEmpty then [] else '.' :: n.fraction

/-- The exponent, with `plus` before one that is not negative. -/
def exponentText (plus : List Char) (n : Numeral) : List Char :=
  match n.exponent with
  | none => []
  | some e => 'e' :: (if e < 0 then ['-'] else plus) ++ Nat.toDigits 10 e.natAbs

def text (plus : List Char) (n : Numeral) : List Char :=
  n.signText ++ n.whole ++ n.fractionText ++ n.exponentText plus

end Numeral

end FlowGraph
