import FlowGraph.Program.Basic
import Std.Data.HashMap

/-! # Where labels are defined

    A jump names a label; the table of positions says where its definition
    stands. A program with a label that is defined twice has no table.
    Main statement: the table gives for each label the position of its
    definition (`positions_get?`).
-/

namespace FlowGraph

/-- The position of the definition of each label. -/
abbrev Positions := Std.HashMap Label Nat

namespace Positions

/-- Enters definitions one after the other. A label that is there already is
    given back. -/
def enter : List (Label × Nat) → Positions → Except Label Positions
  | [], table => .ok table
  | (l, position) :: rest, table =>
    if table.contains l then .error l else enter rest (table.insert l position)

/-- What is entered does not replace what was there. -/
theorem enter_get? {definitions : List (Label × Nat)} {table result : Positions}
    (h : enter definitions table = .ok result) (l : Label) :
    result[l]? = table[l]?.or (definitions.lookup l) := by
  induction definitions generalizing table with
  | nil =>
    simp only [enter, Except.ok.injEq] at h
    simp [h]
  | cons head rest ih =>
    obtain ⟨l', position⟩ := head
    simp only [enter] at h
    split at h
    · simp at h
    · rename_i absent
      rw [ih h, Std.HashMap.getElem?_insert]
      by_cases same : l' = l
      · subst same
        have : table[l']? = none := by simpa using absent
        simp [this]
      · have : (l == l') = false := by simpa using fun e => same e.symm
        simp [same, List.lookup_cons, this]

end Positions

namespace Program

/-- The defined labels with their positions, in order. -/
def definitions (p : Program) : List (Label × Nat) :=
  p.ops.zipIdx.filterMap fun (op, position) => op.defines?.map fun l => (l, position)

/-- The table of positions, or the first label that is defined a second
    time. -/
def positions (p : Program) : Except Label Positions := Positions.enter p.definitions {}

/-- Where a label is first defined. -/
def position? (p : Program) (l : Label) : Option Nat :=
  p.ops.findIdx? fun op => op.defines? == some l

theorem lookup_definitions (ops : List Op) (first : Nat) (l : Label) :
    ((ops.zipIdx first).filterMap fun (op, position) => op.defines?.map fun l => (l, position)).lookup l =
      (ops.findIdx? fun op => op.defines? == some l).map (· + first) := by
  induction ops generalizing first with
  | nil => rfl
  | cons op rest ih =>
    rw [List.zipIdx_cons, List.filterMap_cons, List.findIdx?_cons]
    cases defined : op.defines? with
    | none => simp [defined, ih, Option.map_map, Function.comp_def, Nat.add_comm, Nat.add_left_comm]
    | some l' =>
      by_cases same : l' = l
      · simp [defined, same]
      · have : (l == l') = false := by simpa using fun e => same e.symm
        simp [defined, same, List.lookup_cons, this, ih, Option.map_map, Function.comp_def,
          Nat.add_comm, Nat.add_left_comm]

/-- The table holds the position of every definition, and nothing else. -/
theorem positions_get? {p : Program} {table : Positions} (h : p.positions = .ok table) (l : Label) :
    table[l]? = p.position? l := by
  rw [Positions.enter_get? h l]
  simp [definitions, lookup_definitions, position?]

/-- The first label that is jumped to and not defined. -/
def undefinedLabel? (p : Program) (table : Positions) : Option Label :=
  (p.ops.filterMap Op.references?).find? fun l => !table.contains l

end Program

end FlowGraph
