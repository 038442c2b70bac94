import FlowGraph.Catalog.Basic

/-! # The standard kinds

    The kinds that every graph can use.

    For each category of data there is a family of kinds, named
    `family:category`: variables are set and read, host functions are called
    with a value or asked for one.
-/

namespace FlowGraph

namespace Behaviour

open Recipe

/-- Computes a single output, which has index zero. -/
def single (body : Site → Recipe Code) : Behaviour where
  compute site index := if index = 0 then body site else site.noValueOutput index

/-- Where execution starts; does nothing itself. -/
def start : Behaviour := {}

/-- Passes its input on. -/
def constant : Behaviour := single fun _ => ask 0

/-- Stores its input in the variable that the tag names, then goes on. -/
def setVariable : Behaviour where
  activate site _ := do
    let name ← site.requireTag
    let value ← ask 1
    let next ← send 0
    return .block .void [.setVariable name value, next]

/-- Reads the variable that the tag names. -/
def getVariable : Behaviour := single fun site => do return .getVariable (← site.requireTag)

/-- Calls a host function with its input, then goes on. -/
def emit (c : Category) : Behaviour where
  activate site _ := do
    let target := site.tag.getD ("emit_" ++ c.name)
    let value ← ask 1
    let call ← ofResult (Code.call target [value] .void)
    let next ← send 0
    return .block .void [call, next]

/-- Asks a host function for its output. -/
def query (c : Category) : Behaviour := single fun site =>
  ofResult (Code.call (site.tag.getD ("query_" ++ c.name)) [] c.native)

def arith (f : Arith) : Behaviour := single fun _ => do
  let x ← ask 0
  let y ← ask 1
  return .arith f x y

def compare (f : Comparison) : Behaviour := single fun _ => do
  let x ← ask 0
  let y ← ask 1
  return .compare f x y

def not : Behaviour := single fun _ => do
  let value ← ask 0
  return .block .boolean [value, .op .not .boolean]

/-- Goes on with one of its two outputs. -/
def branch : Behaviour where
  activate _ _ := do
    let condition ← ask 1
    let yes ← send 0
    let no ← send 1
    return .branch condition yes no

/-- Runs its first output a number of times, then goes on with the second. -/
def loop : Behaviour where
  activate _ _ := do
    let times ← ask 1
    let body ← send 0
    let next ← send 1
    return .block .void [.loop times body, next]

/-- Reads the mathematical constant that the tag names. -/
def mathConstant : Behaviour := single fun site =>
  return .op (.getStatic "Math" (site.tag.getD "PI") .double) .double

end Behaviour

namespace Kind

open PortDecl

def start : Kind := ⟨"start", [], [signal "next"], .start⟩

def constant (c : Category) : Kind := ⟨c.name, [native "value" c], [native "value" c], .constant⟩

def setVariable (c : Category) : Kind :=
  ⟨"set_variable:" ++ c.name, [signal "in", boxed "value" c], [signal "next"], .setVariable⟩

def getVariable (c : Category) : Kind :=
  ⟨"get_variable:" ++ c.name, [], [boxed "value" c], .getVariable⟩

def emit (c : Category) : Kind :=
  ⟨"emit:" ++ c.name, [signal "in", native "value" c], [signal "next"], .emit c⟩

def query (c : Category) : Kind := ⟨"query:" ++ c.name, [], [native "value" c], .query c⟩

def arith (name : String) (f : Arith) : Kind :=
  ⟨name, [native "a" .number, native "b" .number], [native "result" .number], .arith f⟩

def compare (name : String) (f : Comparison) : Kind :=
  ⟨name, [native "a" .number, native "b" .number], [native "result" .condition], .compare f⟩

def not : Kind := ⟨"not", [native "value" .condition], [native "result" .condition], .not⟩

def branch : Kind :=
  ⟨"if", [signal "in", native "condition" .condition], [signal "then", signal "else"], .branch⟩

def loop : Kind :=
  ⟨"repeat", [signal "in", native "times" .number], [signal "body", signal "done"], .loop⟩

def mathConstant : Kind := ⟨"math_constant", [], [native "value" .number], .mathConstant⟩

end Kind

namespace Catalog

/-- The kinds of a category of data. -/
def family (c : Category) : List Kind :=
  [.constant c, .setVariable c, .getVariable c, .emit c, .query c]

def standard : Catalog :=
  ofKinds <|
    [.start] ++ Category.values.flatMap family ++
    [.arith "add" .add, .arith "subtract" .sub, .arith "multiply" .mul, .arith "divide" .div,
      .compare "less_than" .lt, .compare "greater_than" .gt, .compare "equals" .eq,
      .not, .branch, .loop, .mathConstant]

end Catalog

end FlowGraph
