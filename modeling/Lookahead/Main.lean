import Lookahead.Command.Run

/-!
# The program

Reads the file that the command line names, runs the command on it, and writes what the run has
written.  Everything that the program decides is decided by `Invocation.ofArgs` and
`Invocation.run`; what is left here is to look at the file and to fill the streams.
-/

namespace Lookahead.Command

/-- How the command is used. -/
def usage : String :=
  "usage: check FILE [-D] | sets FILE [-s NAME] [-D] | first FILE [NAME ...] [-D]"

/-- What is found at a path. -/
def findFile (path : Text) : IO (Except ReadError ByteArray) := do
  if path.hasChar '\x00' || !path.isWritable then return .error .impossible
  try
    return .ok (← IO.FS.readBinFile (plainPath path).shown)
  catch e =>
    return match e with
      | .inappropriateType _ code _ => .error (if code = 20 then .throughFile else .directory)
      | .permissionDenied .. => .error .forbidden
      | .invalidArgument .. => .error .tooLong
      | _ => .error .missing

/-- Runs the command line and gives the exit code. -/
def runArgs [Platform] (args : List Text) : IO UInt32 := do
  match Invocation.ofArgs args with
  | .error stop =>
    IO.eprintln usage
    return UInt32.ofNat stop.exit
  | .ok invocation =>
    let outcome := invocation.run (← findFile invocation.file)
    IO.print (invocation.output outcome)
    IO.eprint (invocation.errors outcome)
    match outcome.ending with
    | .exited code => return UInt32.ofNat code
    | .escaped _ =>
      IO.eprintln "the run has ended with a fault that it does not report"
      return 1

end Lookahead.Command

/-- The program. -/
def main (args : List String) : IO UInt32 :=
  letI := Lookahead.Platform.bare
  Lookahead.Command.runArgs (args.map Lookahead.Text.ofString)
