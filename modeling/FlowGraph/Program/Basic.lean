import FlowGraph.Op.Basic

/-! # Programs

    A finished program: its operations and the number of local slots that
    they use.
-/

namespace FlowGraph

structure Program where
  ops : List Op
  locals : Nat
  deriving DecidableEq, Repr

namespace Program

/-- The number of operations that are not labels. -/
def opCount (p : Program) : Nat := p.ops.countP fun op => !op.isLabel

/-- A line of the listing: labels stand out, the rest is indented. -/
def listingLine (op : Op) : String :=
  if op.isLabel then op.display ++ "\n" else "    " ++ op.display ++ "\n"

def listing (p : Program) : String :=
  s!"; locals: {p.locals}\n" ++ String.join (p.ops.map listingLine)

end Program

end FlowGraph
