import FlowGraph.Op.Basic

/-! # Blocks of operations

    A sequence of operations that remembers the pieces it was put together
    from. Joining two blocks takes no time, whatever their lengths; `toList`
    reads the operations off once, at the end.
-/

namespace FlowGraph

inductive Block where
  | ops (list : List Op)
  | join (first second : Block)

namespace Block

instance : Append Block := ⟨join⟩

/-- The operations of a block, with others behind them. -/
def before : Block → List Op → List Op
  | .ops list, rest => list ++ rest
  | .join first second, rest => first.before (second.before rest)

/-- The operations of a block. -/
def toList (b : Block) : List Op := b.before []

theorem before_eq (b : Block) (rest : List Op) : b.before rest = b.toList ++ rest := by
  induction b generalizing rest with
  | ops list => simp [toList, before]
  | join first second ihf ihs =>
    simp only [toList, before]
    rw [ihs rest, ihs [], ihf, ihf (second.toList ++ [])]
    simp

@[simp] theorem toList_ops (list : List Op) : (ops list).toList = list := by
  simp [toList, before]

@[simp] theorem toList_append (a b : Block) : (a ++ b).toList = a.toList ++ b.toList := by
  show a.before (b.before []) = _
  rw [before_eq]
  rfl

end Block

end FlowGraph
