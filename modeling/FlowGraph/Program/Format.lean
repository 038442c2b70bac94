import FlowGraph.Program.Binary
import FlowGraph.Program.Json

/-! # Output formats

    The forms in which a program can be handed on.
-/

namespace FlowGraph

inductive Format where
  | listing
  | json
  | binary
  deriving DecidableEq, Repr

namespace Format

/-- The format that a word names. -/
def ofName? : String → Option Format
  | "listing" | "list" | "text" => some .listing
  | "json" => some .json
  | "bin" | "bincode" => some .binary
  | _ => none

def isBinary (f : Format) : Bool := f == .binary

end Format

/-- The bytes of a program in a format. -/
def Program.encode (p : Program) : Format → ByteArray
  | .listing => p.listing.toUTF8
  | .json => p.jsonText.toUTF8
  | .binary => ⟨p.toBytes.toArray⟩

end FlowGraph
