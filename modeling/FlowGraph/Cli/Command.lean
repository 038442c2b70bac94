import FlowGraph.Cli.Options
import FlowGraph.Cli.Plan
import FlowGraph.Graph.Compile
import FlowGraph.Graph.Json
import FlowGraph.Machine.Basic

/-! # Commands

    The commands of the program, as plans.
-/

namespace FlowGraph

namespace Cli

def usage : List String :=
  ["Flow graph compiler",
    "",
    "Usage: flowc <command> [options]",
    "",
    "Commands:",
    "  compile <graph.json>  Compile a graph document",
    "  run <graph.json>      Compile and run on the reference machine",
    "  kinds                 List built-in node kinds and their ports",
    "  help                  Show this help message",
    "  version               Show version information",
    "",
    "Compile options:",
    "  --emit=<format>       Emit: listing (default), json, bin",
    "  -o <path>             Output file path",
    "  -v, --verbose         Print unit statistics",
    "",
    "Run options:",
    "  --answer=<name>=<literal>  Value host function <name> returns",
    "  -v, --verbose              Print a run summary",
    "",
    "Environment:",
    "  RUST_LOG=<filter>     Enable tracing (e.g. flow_compile=trace)",
    "",
    "Examples:",
    "  flowc compile graph.json",
    "  flowc compile graph.json --emit=bin -o graph.bin",
    "  flowc run graph.json --answer=query_number=4",
    "  flowc kinds"]

def compileUsage : List String :=
  ["Usage: flowc compile <graph.json> [options]",
    "",
    "Options:",
    "  --emit=<format>     Emit: listing (default), json, bin",
    "  -o <path>           Output file (default: stdout)",
    "  -v, --verbose       Print unit statistics"]

def runUsage : List String :=
  ["Usage: flowc run <graph.json> [options]",
    "",
    "Options:",
    "  --answer=<name>=<literal>  Value host function <name> returns",
    "  -v, --verbose              Print a run summary"]

/-! ## Compiling a document -/

/-- Reads and compiles a document; wires that lead nowhere are warned of. Why a
    text is no document is left out of the message. -/
def withCompilation (path : String) (next : Compilation → Plan) : Plan :=
  .read path fun
    | .error failure => .fail (failure.message path)
    | .ok text =>
      match Graph.ofDocument? text with
      | none => .fail s!"{path}: invalid graph document:"
      | some graph =>
        match graph.compile .standard with
        | .error e => .fail (path ++ ": " ++ e.message)
        | .ok compilation =>
          .reportLines (compilation.problems.map fun p => s!"warning: {path}: " ++ p.message)
            (next compilation)

/-- Reports a line if it was asked for. -/
def ifVerbose (o : Options) (line : String) (next : Plan) : Plan :=
  if o.verbose then .report line next else next

/-- Prints bytes, but nothing that is not text to a terminal. -/
def printOutput (format : Format) (bytes : ByteArray) : Plan :=
  if format.isBinary then
    .terminal fun isTerminal =>
      if isTerminal then .fail "refusing to write binary output to a terminal, use -o <path>"
      else .print bytes (.exit 0)
  else .print bytes (.exit 0)

/-- Compiles a document and writes the program out. -/
def compileFile (path : String) (o : Options) : Plan :=
  withCompilation path fun c =>
    let p := c.program
    let bytes := p.encode o.format
    ifVerbose o s!"{path}: {p.ops.length} ops, {p.locals} locals, {c.problems.length} problems" <|
      match o.output with
      | none => printOutput o.format bytes
      | some output => .write output bytes fun
        | .error reason => .fail s!"cannot write '{output}': {reason}"
        | .ok () => ifVerbose o s!"wrote {bytes.size} bytes to {output}" (.exit 0)

/-! ## Running a document -/

/-- The value that an answer stands for. -/
def answerValue : Literal → Value
  | .null => .null
  | .boolean b => .boolean b
  | .integer n => .double (.ofInt n)
  | .number x => .double x
  | .text s => .text s

def scriptOf (answers : List Answer) : Script :=
  answers.foldl (fun s a => s.answer a.target (answerValue a.value)) .empty

/-- Compiles a document, runs it and prints the calls of host functions. -/
def runFile (path : String) (o : Options) : Plan :=
  withCompilation path fun c =>
    match c.program.run {} Script.host (scriptOf o.answers) with
    | (.error fault, _) => .fail (s!"runtime fault in '{path}': " ++ fault.message)
    | (.ok outcome, s) =>
      .printLines (s.calls.toList.map HostCall.display) <|
        ifVerbose o s!"{path}: {s.calls.size} host calls, {outcome.steps} steps" (.exit 0)

/-! ## The command line -/

/-- What stands behind the last dot of the last name in a path. A dot at the
    start of the name does not count. -/
def extension? (path : String) : Option String :=
  match (pathNames path).getLast? with
  | none | some ".." => none
  | some name =>
    match name.splitOn "." with
    | [_] | ["", _] => none
    | parts => parts.getLast?

/-- A file that is named like a graph document. -/
def isDocument (path : String) : Bool :=
  match extension? path with
  | some e => e.toList.map Char.toLower == "json".toList
  | none => false

/-- A command with a document and options. -/
def onDocument (help : List String) (command : String → Options → Plan) : List String → Plan
  | [] => .reportLines help (.exit 1)
  | path :: args =>
    let (options, warnings) := ({} : Options).collect args
    .reportLines (warnings.map fun w => "warning: " ++ w.message) (command path options)

/-- The plan for the arguments of the program. -/
def plan : List String → Plan
  | [] => .printLines usage (.exit 0)
  | command :: args =>
    match command with
    | "compile" => onDocument compileUsage compileFile args
    | "run" => onDocument runUsage runFile args
    | "kinds" =>
      let standard := Catalog.standard
      .printLines ((standard.names.filterMap standard.get?).map Kind.display) (.exit 0)
    | "help" | "--help" | "-h" => .printLines usage (.exit 0)
    | "version" | "--version" | "-V" => .printLines ["flowc 0.1.0"] (.exit 0)
    | _ =>
      if isDocument command then compileFile command {}
      else .reportLines ["Unknown command: " ++ command, ""] (.printLines usage (.exit 1))

end Cli

end FlowGraph
