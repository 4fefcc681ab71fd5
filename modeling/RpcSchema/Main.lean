import RpcSchema.CommandLine.Run

/-!
# The program

Reads the files that the arguments name, runs the command, and writes its outcome.
-/

namespace RpcSchema

/-- Read a file. -/
def readContent (path : String) : IO FileContent := do
  try
    return .text (← IO.FS.readFile path)
  catch
    | .noFileOrDirectory .. => return .missing
    | error => return .unreadable (toString error)

/-- Write an outcome, and give the exit code. -/
def writeOutcome (outcome : Outcome) : IO UInt32 := do
  match outcome.text, outcome.file with
  | some text, none => IO.print text
  | some text, some path =>
    try
      IO.FS.writeFile path text
    catch error =>
      let unwritten := Outcome.unwritten path (toString error)
      unwritten.errors.forM fun line => IO.eprintln line
      return unwritten.code.toUInt32
  | none, _ => pure ()
  outcome.errors.forM fun line => IO.eprintln line
  return outcome.code.toUInt32

end RpcSchema

/-- The program. -/
def main (arguments : List String) : IO UInt32 := do
  let invocation := RpcSchema.Invocation.ofArguments arguments
  let contents ← (RpcSchema.Invocation.inputs invocation).mapM fun path => do
    return (path, ← RpcSchema.readContent path)
  let files := fun path => (RpcSchema.Fields.get? contents path).getD .missing
  RpcSchema.writeOutcome (RpcSchema.Invocation.outcome files invocation)
