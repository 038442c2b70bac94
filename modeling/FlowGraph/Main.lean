import FlowGraph.Cli.Command

/-! # The program

    Runs the plan of the command line.
-/

namespace FlowGraph

namespace Cli

/-- Why the system refused, with its error number. -/
def systemReason (e : IO.Error) : String :=
  match e with
  | .noFileOrDirectory _ code details
  | .inappropriateType _ code details
  | .permissionDenied _ code details
  | .invalidArgument _ code details
  | .resourceExhausted _ code details => s!"{details} (os error {code})"
  | .otherError code details
  | .unsupportedOperation code details
  | .illegalOperation code details
  | .resourceBusy code details
  | .hardwareFault code details
  | .unsatisfiedConstraints code details => s!"{details} (os error {code})"
  | _ => toString e

def readFile (path : String) : IO (Except ReadFailure String) := do
  try
    match String.fromUTF8? (← IO.FS.readBinFile path) with
    | some text => return .ok text
    | none => return .error .notText
  catch
    | .noFileOrDirectory .. => return .error .notFound
    | .permissionDenied .. => return .error .permissionDenied
    | e => return .error (.other (systemReason e))

def writeFile (path : String) (bytes : ByteArray) : IO (Except String Unit) := do
  try
    IO.FS.writeBinFile path bytes
    return .ok ()
  catch e => return .error (systemReason e)

def runPlan : Plan → IO UInt32
  | .exit code => return UInt32.ofNat code
  | .print bytes next => do
    (← IO.getStdout).write bytes
    runPlan next
  | .report line next => do
    IO.eprintln line
    runPlan next
  | .read path next => do runPlan (next (← readFile path))
  | .write path bytes next => do runPlan (next (← writeFile path bytes))
  | .terminal next => do runPlan (next (← (← IO.getStdout).isTty))

end Cli

end FlowGraph

def main (args : List String) : IO UInt32 := FlowGraph.Cli.runPlan (FlowGraph.Cli.plan args)
