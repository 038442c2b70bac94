import FlowGraph.Catalog.Recipe

/-! # Kinds and catalogs

    A kind declares the ports of its nodes and what they do; a catalog holds
    kinds by name.
-/

namespace FlowGraph

/-- The declaration of an input or an output. -/
structure PortDecl where
  name : String
  category : Category
  form : Form
  deriving DecidableEq, Repr

namespace PortDecl

def signal (name : String) : PortDecl := ⟨name, .signal, .native⟩

def native (name : String) (c : Category) : PortDecl := ⟨name, c, .native⟩

def boxed (name : String) (c : Category) : PortDecl := ⟨name, c, .boxed⟩

def isSignal (p : PortDecl) : Bool := p.category.isSignal

def display (p : PortDecl) : String :=
  match p.form with
  | .native => s!"{p.name}: {p.category.name}"
  | .boxed => s!"{p.name}: boxed {p.category.name}"

/-- What the slot of a shared output holds before it is computed. -/
def default (p : PortDecl) : Const :=
  match p.form with
  | .native => p.category.default?.getD .null
  | .boxed => .null

end PortDecl

/-- What nodes of a kind do. -/
structure Behaviour where
  /-- Code that runs when a signal arrives at an input. -/
  activate : Site → Nat → Recipe Code := fun site _ => site.notActivatable
  /-- Code that computes an output, in the form that the port declares. -/
  compute : Site → Nat → Recipe Code := fun site index => site.noValueOutput index

structure Kind where
  name : String
  inputs : List PortDecl
  outputs : List PortDecl
  behaviour : Behaviour

namespace Kind

/-- The kind with its ports, on one line. -/
def display (k : Kind) : String :=
  k.name ++ " (" ++ ports k.inputs ++ ") -> (" ++ ports k.outputs ++ ")"
where
  ports (ps : List PortDecl) : String := String.intercalate ", " (ps.map PortDecl.display)

end Kind

/-- Kinds, no two of one name. -/
structure Catalog where
  kinds : List Kind

namespace Catalog

def empty : Catalog := ⟨[]⟩

/-- Adds a kind, in place of one with the same name. -/
def register (c : Catalog) (k : Kind) : Catalog :=
  ⟨k :: c.kinds.filter fun other => other.name != k.name⟩

def ofKinds (kinds : List Kind) : Catalog := kinds.foldl register empty

def get? (c : Catalog) (name : String) : Option Kind := c.kinds.find? fun k => k.name == name

def size (c : Catalog) : Nat := c.kinds.length

/-- The names of the kinds, sorted. -/
def names (c : Catalog) : List String := (c.kinds.map Kind.name).mergeSort fun a b => a ≤ b

/-- The catalog as a list of names. -/
def display (c : Catalog) : String :=
  "Catalog \x7b kinds: [" ++ String.intercalate ", " (c.names.map Text.quoted) ++ "] \x7d"

end Catalog

end FlowGraph
