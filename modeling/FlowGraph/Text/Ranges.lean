/-! # Sets of characters

    A set of characters is a list of runs, given by their first and last
    code points in ascending order.
-/

namespace FlowGraph

namespace Text

/-- The code point lies in one of the runs. -/
def inRanges : List (Nat × Nat) → Nat → Bool
  | [], _ => false
  | (first, last) :: rest, n =>
    -- Runs ascend, so one that starts above `n` ends the search.
    if n < first then false
    else if n ≤ last then true
    else inRanges rest n

end Text

end FlowGraph
