import FlowGraph.Graph.Literal
import FlowGraph.Json.Reader
import FlowGraph.Program.Format

/-! # Options of the command line

    Options never stop a command: one that cannot be understood is passed
    over with a warning.
-/

namespace FlowGraph

namespace Cli

/-- The rest of a text behind its start. -/
def behind? : List Char → List Char → Option (List Char)
  | [], rest => some rest
  | c :: start, d :: rest => if c = d then behind? start rest else none
  | _ :: _, [] => none

/-- The value of an option that is written `start` and the value. -/
def valueOf? (start arg : String) : Option String :=
  (behind? start.toList arg.toList).map String.ofList

/-- The value that a host function gives back. -/
structure Answer where
  target : String
  value : Literal
  deriving DecidableEq, Repr

/-- Reads `name=literal`, with a name that is not empty. A literal is written
    as in a graph document; anything else is text. -/
def Answer.ofText? (s : String) : Option Answer :=
  match s.toList.span (· != '=') with
  | ([], _) | (_, []) => none
  | (target, _ :: value) =>
    let value := String.ofList value
    some ⟨String.ofList target, ((Json.parse? value).bind (Literal.ofJson? ·)).getD (.text value)⟩

structure Options where
  format : Format := .listing
  /-- The file to write to; the standard output if there is none. -/
  output : Option String := none
  answers : List Answer := []
  verbose : Bool := false
  deriving DecidableEq, Repr

inductive Warning where
  | unknownFormat (name : String)
  | malformedAnswer (text : String)
  | unknownOption (arg : String)
  deriving DecidableEq, Repr

def Warning.message : Warning → String
  | .unknownFormat name => s!"unknown emit format '{name}', options: listing, json, bin"
  | .malformedAnswer text => s!"malformed answer '{text}', expected <name>=<literal>"
  | .unknownOption arg => s!"unknown option '{arg}'"

namespace Options

/-- Takes one argument into account. -/
def add (o : Options) (arg : String) : Options × List Warning :=
  if let some name := valueOf? "--emit=" arg then
    match Format.ofName? name with
    | some format => ({ o with format }, [])
    | none => (o, [.unknownFormat name])
  else if let some path := (valueOf? "-o=" arg).or (valueOf? "--output=" arg) then
    ({ o with output := some path }, [])
  else if let some text := valueOf? "--answer=" arg then
    match Answer.ofText? text with
    | some answer => ({ o with answers := o.answers ++ [answer] }, [])
    | none => (o, [.malformedAnswer text])
  else if arg = "--verbose" ∨ arg = "-v" then ({ o with verbose := true }, [])
  else (o, [.unknownOption arg])

/-- The options of a group of arguments, each seen on its own. -/
def parse (args : List String) : Options × List Warning := go {} args
where
  go (o : Options) : List String → Options × List Warning
    | [] => (o, [])
    | arg :: rest =>
      let (o, first) := o.add arg
      let (o, others) := go o rest
      (o, first ++ others)

/-- Options, overridden by later ones. A later `listing` changes nothing,
    since it cannot be told from no format at all. -/
def merge (o later : Options) : Options where
  format := if later.format = .listing then o.format else later.format
  output := later.output.or o.output
  answers := o.answers ++ later.answers
  verbose := o.verbose || later.verbose

/-- The options of a command. `-o` takes the next argument as its path. -/
def collect (o : Options) : List String → Options × List Warning
  | [] => (o, [])
  | [arg] =>
    let (later, warnings) := parse [arg]
    (o.merge later, warnings)
  | arg :: next :: rest =>
    if arg = "-o" then collect { o with output := some next } rest
    else
      let (later, first) := parse [arg]
      let (o, others) := collect (o.merge later) (next :: rest)
      (o, first ++ others)

end Options

end Cli

end FlowGraph
