import FlowGraph.Machine.Value

/-! # The stack of the machine

    Values, the top first, with their number at hand: the machine compares
    it with a limit at every push.
-/

namespace FlowGraph

structure Stack where
  /-- The values, the top first. -/
  values : List Value
  depth : Nat
  depth_eq : depth = values.length
  deriving DecidableEq, Repr

namespace Stack

def empty : Stack := ⟨[], 0, rfl⟩

def push (s : Stack) (v : Value) : Stack := ⟨v :: s.values, s.depth + 1, by simp [s.depth_eq]⟩

/-- The value on top and the rest. -/
def pop? : Stack → Option (Value × Stack)
  | ⟨[], _, _⟩ => none
  | ⟨v :: rest, depth, h⟩ => some (v, ⟨rest, depth - 1, by simp [h]⟩)

/-- The topmost `n` values, the top last, and the rest. -/
def take? (s : Stack) (n : Nat) : Option (List Value × Stack) :=
  if n ≤ s.depth then
    some ((s.values.take n).reverse, ⟨s.values.drop n, s.depth - n, by simp [s.depth_eq]⟩)
  else none

@[simp] theorem values_empty : empty.values = [] := rfl

@[simp] theorem values_push (s : Stack) (v : Value) : (s.push v).values = v :: s.values := rfl

@[ext] theorem ext_values {s t : Stack} (h : s.values = t.values) : s = t := by
  obtain ⟨values, depth, hs⟩ := s
  obtain ⟨values', depth', ht⟩ := t
  subst h hs ht
  rfl

end Stack

end FlowGraph
