import FlowGraph.Json.Numbers

/-! # JSON values

    A JSON value as a text gives it: members keep their order and may
    repeat a key, numbers keep all their digits. Which double a number is,
    is for its reader to say (`Json.Numbers`).

    The grammar lets an escape name half of a surrogate pair. Such a string
    is no text, but it may stand where nobody reads it, so a string token
    carries an optional text.
-/

namespace FlowGraph

inductive Json where
  | null
  | boolean (b : Bool)
  /-- A number written without fraction and exponent, `-0` apart. -/
  | integer (n : Int)
  /-- Any other number. -/
  | real (numeral : Numeral)
  | string (text : Option String)
  | array (items : List Json)
  | object (members : List (Option String × Json))
  deriving Repr, Inhabited

namespace Json

/-! ## Building values -/

def text (s : String) : Json := .string (some s)

def nat (n : Nat) : Json := .integer n

def record (members : List (String × Json)) : Json :=
  .object (members.map fun (key, value) => (some key, value))

/-- `{"name": payload}`, the form of an alternative that carries data. -/
def tagged (name : String) (payload : Json) : Json := record [(name, payload)]

/-! ## Reading values

    A reader answers `none` for a value of another shape. -/

def nat? (bound : Nat) : Json → Option Nat
  | .integer n => if 0 ≤ n ∧ n.toNat < bound then some n.toNat else none
  | _ => none

def boolean? : Json → Option Bool
  | .boolean b => some b
  | _ => none

def text? : Json → Option String
  | .string s => s
  | _ => none

/-- The double of a number; too large a number has none. An integer of 64 bits
    is rounded to the nearest one, a larger one is read as its digits. -/
def double? (numbers : Numbers) : Json → Option Double
  | .integer n => if n.natAbs < UInt64.size then some (Double.ofInt n) else numbers.read? (integerNumeral n)
  | .real numeral => numbers.read? numeral
  | _ => none
where
  integerNumeral (n : Int) : Numeral := ⟨n < 0, Nat.toDigits 10 n.natAbs, [], none⟩

def list? {α : Type} (item? : Json → Option α) : Json → Option (List α)
  | .array items => items.mapM item?
  | _ => none

/-- A value that may be `null`. -/
def option? {α : Type} (value? : Json → Option α) : Json → Option (Option α)
  | .null => some none
  | j => (value? j).map some

/-- The value under a key: `some none` if the key is missing, `none` if it
    is repeated. -/
def member? (members : List (Option String × Json)) (key : String) : Option (Option Json) :=
  match members.filter fun m => m.1 == some key with
  | [] => some none
  | [(_, value)] => some (some value)
  | _ => none

/-- The fields of a record, in the order of their names.

    A record is an object, in which other keys are passed over, or an array
    of the fields in order, from which the last ones may be missing. -/
def fields? (names : List String) : Json → Option (List (Option Json))
  | .array items =>
    if items.length ≤ names.length then some ((List.range names.length).map fun i => items[i]?) else none
  | .object members =>
    if members.all fun m => m.1.isSome then names.mapM (member? members) else none
  | _ => none

/-- A named alternative: a bare name, or an object whose only key is the
    name. -/
def alternative? : Json → Option (String × Option Json)
  | .string (some name) => some (name, none)
  | .object [(some name, payload)] => some (name, some payload)
  | _ => none

end Json

end FlowGraph
