import FlowGraph.Json.Basic

/-! # Writing JSON text

    Two forms: `compact`, without any blank, and `pretty`, with one item or
    member a line, indented by two blanks.
-/

namespace FlowGraph

namespace Json

/-- A finite double is a number; there is none for the others. -/
def ofDouble (numbers : Numbers) (x : Double) : Json :=
  if x.isFinite then .real (numbers.write x) else .null

/-- One character of a string. -/
def escape (c : Char) : List Char :=
  match c with
  | '"' => ['\\', '"']
  | '\\' => ['\\', '\\']
  | '\x08' => ['\\', 'b']
  | '\x0c' => ['\\', 'f']
  | '\n' => ['\\', 'n']
  | '\r' => ['\\', 'r']
  | '\t' => ['\\', 't']
  | c =>
    if c.toNat < 32 then
      ['\\', 'u', '0', '0', Nat.digitChar (c.toNat / 16), Nat.digitChar (c.toNat % 16)]
    else [c]

/-- A string in quotes. One that is no text is written as half a pair. -/
def writeString : Option String → List Char
  | some s => '"' :: s.toList.flatMap escape ++ ['"']
  | none => ['"', '\\', 'u', 'd', '8', '0', '0', '"']

def writeInteger (n : Int) : List Char :=
  if n < 0 then '-' :: Nat.toDigits 10 n.natAbs else Nat.toDigits 10 n.natAbs

def writeReal (n : Numeral) : List Char := n.text Layout.json.exponentSign

/-! ## Compact text -/

mutual

def writeCompact : Json → List Char
  | .null => "null".toList
  | .boolean true => "true".toList
  | .boolean false => "false".toList
  | .integer n => writeInteger n
  | .real n => writeReal n
  | .string s => writeString s
  | .array items => '[' :: writeCompactItems items
  | .object members => '\x7b' :: writeCompactMembers members

/-- The items of an array and its closing bracket. -/
def writeCompactItems : List Json → List Char
  | [] => [']']
  | [item] => writeCompact item ++ [']']
  | item :: items => writeCompact item ++ ',' :: writeCompactItems items

/-- The members of an object and its closing brace. -/
def writeCompactMembers : List (Option String × Json) → List Char
  | [] => ['\x7d']
  | [(key, value)] => writeString key ++ ':' :: writeCompact value ++ ['\x7d']
  | (key, value) :: members =>
    writeString key ++ ':' :: writeCompact value ++ ',' :: writeCompactMembers members

end

def compact (j : Json) : String := String.ofList (writeCompact j)

/-! ## Pretty text -/

/-- A new line at a depth. -/
def newLine (depth : Nat) : List Char := '\n' :: List.replicate (2 * depth) ' '

mutual

def writePretty (depth : Nat) : Json → List Char
  | .array (item :: items) =>
    '[' :: newLine (depth + 1) ++ writePretty (depth + 1) item ++ writePrettyItems depth items
  | .object ((key, value) :: members) =>
    '\x7b' :: newLine (depth + 1) ++ writeString key ++ ':' :: ' ' :: writePretty (depth + 1) value ++
      writePrettyMembers depth members
  | .array [] => ['[', ']']
  | .object [] => ['\x7b', '\x7d']
  | .null => "null".toList
  | .boolean true => "true".toList
  | .boolean false => "false".toList
  | .integer n => writeInteger n
  | .real n => writeReal n
  | .string s => writeString s

/-- The items after the first, and the closing bracket. -/
def writePrettyItems (depth : Nat) : List Json → List Char
  | [] => newLine depth ++ [']']
  | item :: items =>
    ',' :: newLine (depth + 1) ++ writePretty (depth + 1) item ++ writePrettyItems depth items

/-- The members after the first, and the closing brace. -/
def writePrettyMembers (depth : Nat) : List (Option String × Json) → List Char
  | [] => newLine depth ++ ['\x7d']
  | (key, value) :: members =>
    ',' :: newLine (depth + 1) ++ writeString key ++ ':' :: ' ' :: writePretty (depth + 1) value ++
      writePrettyMembers depth members

end

def pretty (j : Json) : String := String.ofList (writePretty 0 j)

end Json

end FlowGraph
