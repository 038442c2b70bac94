import FlowGraph.Graph.Error
import FlowGraph.Op.Basic

/-! # Code trees

    Code before it is laid out: a tree of operations that names variables,
    shared computations, loops and branches instead of slots and labels.

    A block `c₁; c₂; …; cₙ` is written `andThen c₁ (andThen c₂ … (done ty))`
    and has the type `ty` that it ends with. `Code.block` builds one from a
    list.
-/

namespace FlowGraph

/-- The number of a shared computation. -/
abbrev SharedId := Nat

inductive Code where
  /-- One operation. -/
  | op (op : Op) (ty : Ty)
  /-- The end of a block. -/
  | done (ty : Ty)
  | andThen (first rest : Code)
  /-- Operations whose labels are local to this piece of code. -/
  | raw (ty : Ty) (ops : List Op)
  /-- The value of a shared computation. -/
  | shared (id : SharedId) (ty : Ty)
  | getVariable (name : String)
  | setVariable (name : String) (value : Code)
  /-- Runs the body with a counter from `0` in steps of `1` while the counter
      is below the number of times, which is computed once. -/
  | loop (times body : Code)
  | branch (condition yes no : Code)
  deriving DecidableEq, Repr

namespace Code

/-- The type of what the code leaves on the stack. -/
def ty : Code → Ty
  | .op _ ty => ty
  | .done ty => ty
  | .andThen _ rest => rest.ty
  | .raw ty _ => ty
  | .shared _ ty => ty
  | .getVariable _ => .ref .object
  | .setVariable _ _ => .void
  | .loop _ _ => .void
  | .branch _ yes _ => yes.ty

/-! ## Building code -/

/-- The pieces of code one after the other. -/
def block (ty : Ty) (pieces : List Code) : Code := pieces.foldr andThen (done ty)

def empty : Code := done .void

def const (c : Const) : Code := op (.const c) c.ty

def arith (f : Arith) (x y : Code) : Code := block .double [x, y, op (.arith f) .double]

def compare (f : Comparison) (x y : Code) : Code := block .boolean [x, y, op (.compare f) .boolean]

/-- A call of a host function. The number of arguments has to fit a byte. -/
def call (target : String) (args : List Code) (returns : Ty) : Except GraphError Code :=
  if args.length ≤ 255 then
    .ok (block returns (args ++ [op (.invoke target args.length returns) returns]))
  else .error (.tooManyArguments target args.length)

end Code

end FlowGraph
