import FlowGraph.Text.Extender
import FlowGraph.Text.Ignorable
import FlowGraph.Text.Unprintable

/-! # Quoted text

    How a text constant is shown: between quotes, with what a reader could
    not see or would misread escaped.
-/

namespace FlowGraph

namespace Text

/-- The halfwidth voiced and semi-voiced sound marks. They extend the letter
    before them, but unlike a combining mark they take up room of their own. -/
def isSoundMark (c : Char) : Bool := c == '\uff9e' || c == '\uff9f'

/-- A reader would not see the character, or not apart from the one before. -/
def isHidden (c : Char) : Bool :=
  (isExtender c && !isSoundMark c) || isIgnorable c || isUnprintable c

/-- One character inside quotes. -/
def escape (c : Char) : List Char :=
  match c with
  | '\x00' => ['\\', '0']
  | '\t' => ['\\', 't']
  | '\r' => ['\\', 'r']
  | '\n' => ['\\', 'n']
  | '\\' => ['\\', '\\']
  | '"' => ['\\', '"']
  | c =>
    if isHidden c then
      ['\\', 'u', '\x7b'] ++ Nat.toDigits 16 c.toNat ++ ['\x7d']
    else [c]

/-- The text between quotes. -/
def quoted (s : String) : String := String.ofList ('"' :: s.toList.flatMap escape ++ ['"'])

end Text

end FlowGraph
