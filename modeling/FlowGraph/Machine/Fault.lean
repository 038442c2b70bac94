import FlowGraph.Op.Basic

/-! # Faults

    Why a program cannot be loaded or stops before its end.
-/

namespace FlowGraph

inductive Fault where
  | stackOverflow (limit : Nat)
  | stackUnderflow
  | tooManyLocals (requested limit : Nat)
  | slotOutOfRange (slot : Nat)
  | uninitializedLocal (slot : Nat)
  /-- An operand of an operation has the wrong type. -/
  | typeMismatch (op : String) (expected : Ty) (found : String)
  | nullReference
  | classCast (expected : HeapClass) (found : String)
  | unknownLabel (l : Label)
  | duplicateLabel (l : Label)
  | stepLimit (limit : Nat)
  | unknownStatic (owner name : String)
  /-- A host function gave back something else than it was called for. -/
  | badHostResult (target : String) (expected : Ty) (found : String)
  deriving DecidableEq, Repr

namespace Fault

def message : Fault → String
  | .stackOverflow limit => s!"stack overflow (limit {limit})"
  | .stackUnderflow => "stack underflow"
  | .tooManyLocals requested limit => s!"unit needs {requested} locals, limit is {limit}"
  | .slotOutOfRange slot => s!"local slot {slot} is out of range"
  | .uninitializedLocal slot => s!"local slot {slot} read before it was written"
  | .typeMismatch op expected found => s!"`{op}` expected {expected.shortName}, found {found}"
  | .nullReference => "null reference"
  | .classCast expected found => s!"cannot cast {found} to {expected.name}"
  | .unknownLabel l => "jump to undefined label " ++ Op.labelText l
  | .duplicateLabel l => "label " ++ Op.labelText l ++ " defined twice"
  | .stepLimit limit => s!"step limit of {limit} exceeded"
  | .unknownStatic owner name => s!"unknown static field {owner}.{name}"
  | .badHostResult target expected found =>
    s!"host function `{target}` returned {found}, expected {expected.text}"

end Fault

end FlowGraph
