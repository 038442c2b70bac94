import FlowGraph.Double.Basic
import FlowGraph.Double.Decimal

/-! # The shortest decimal of a double

    The decimal with the fewest digits among those that read back as the
    double, and of those the nearest to it.

    The reals that round to `m * 2 ^ scale` form an interval around it; its
    ends belong to it when `m` is even. On the grid of multiples of
    `10 ^ place` only the two neighbours of the value need to be tried. The
    places are tried from the coarsest down, and the first that has a
    neighbour inside the interval wins.
-/

namespace FlowGraph

/-- Which of two equally near neighbours is taken. -/
inductive Tie where
  | up
  | even
  deriving DecidableEq, Repr

namespace Double

/-- The reals that round to `mantissa * 2 ^ scale`, in units of
    `2 ^ (scale - 2)`: the value lies at `4 * mantissa`, the upper end two
    units above. The lower end is one unit below where the doubles get
    denser, two elsewhere. -/
structure RoundingInterval where
  mantissa : Nat
  scale : Int

namespace RoundingInterval

def value (i : RoundingInterval) : Nat := 4 * i.mantissa

def upper (i : RoundingInterval) : Nat := 4 * i.mantissa + 2

def lower (i : RoundingInterval) : Nat :=
  if i.mantissa = exponentWeight ∧ -1074 < i.scale then 4 * i.mantissa - 1 else 4 * i.mantissa - 2

/-- `a / b` lies in the interval. -/
def contains (i : RoundingInterval) (a b : Nat) : Bool :=
  if i.mantissa % 2 = 0 then i.lower * b ≤ a ∧ a ≤ i.upper * b
  else i.lower * b < a ∧ a < i.upper * b

/-- The neighbour of the value on the grid of `10 ^ place` that lies in the
    interval, the nearer one if both do. -/
def onGrid (i : RoundingInterval) (tie : Tie) (place : Int) : Option Nat :=
  -- One step of the grid is `step / unit` units of the interval.
  let step := Nat.pow 10 place.toNat <<< (2 - i.scale).toNat
  let unit := Nat.pow 10 (-place).toNat <<< (i.scale - 2).toNat
  let below := i.value * unit / step
  let above := below + 1
  match i.contains (below * step) unit, i.contains (above * step) unit with
  | false, false => none
  | true, false => some below
  | false, true => some above
  | true, true =>
    let twice := 2 * (i.value * unit)
    let middle := (below + above) * step
    if twice < middle then some below
    else if middle < twice then some above
    else match tie with
      | .up => some above
      | .even => some (if below % 2 = 0 then below else above)

/-- A place at or above that of the first digit of the value. -/
def firstPlace (i : RoundingInterval) : Int :=
  ((i.mantissa.log2 : Int) + i.scale + 1) * 30103 / 100000 + 1

/-- Tries `count` places from `place` down. Seventeen digits always read
    back, so twenty places below `firstPlace` are enough. -/
def search (i : RoundingInterval) (tie : Tie) : Nat → Int → Decimal
  | 0, place => ⟨(i.onGrid tie place).getD 0, place⟩
  | count + 1, place =>
    match i.onGrid tie place with
    | some digits => ⟨digits, place⟩
    | none => i.search tie count (place - 1)

end RoundingInterval

/-- The shortest decimal of `mantissa * 2 ^ scale`, without final zeros. -/
def shortest (tie : Tie) (mantissa : Nat) (scale : Int) : Decimal :=
  if mantissa = 0 then ⟨0, 0⟩
  else
    let interval : RoundingInterval := ⟨mantissa, scale⟩
    (interval.search tie 20 interval.firstPlace).normalize

end Double

end FlowGraph
