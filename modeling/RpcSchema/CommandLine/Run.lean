import RpcSchema.CommandLine.Arguments
import RpcSchema.Generation.ToJson
import RpcSchema.Json.Reader

/-!
# Commands at work

What a command writes, given the files it reads.  Bundles are read first, then
documents, then the profile; the first failure ends the command.  A command that
generates modules reports what failed in them after its output.

## Main definitions

* `FileContent` — what reading a file gives.
* `Outcome` — what is written, what is reported, and the exit code.
* `Command.run` — the outcome of a command.
* `Invocation.outcome` — the outcome of arguments.
-/

namespace RpcSchema

/-- What reading a file gives. -/
inductive FileContent
  | missing
  | unreadable (reason : String)
  | text (content : String)

/-- What a program writes, reports and ends with. -/
structure Outcome where
  /-- The text written, if any. -/
  text : Option String
  /-- The file it goes to instead of standard output. -/
  file : Option String
  /-- The lines for standard error. -/
  errors : List String
  code : Nat

namespace Outcome

/-- Text for standard output. -/
def ofText (text : String) : Outcome := ⟨some text, none, [], 0⟩

/-- Nothing but a failure. -/
def ofFailure (failure : Failure) : Outcome :=
  ⟨none, none, ["Error: " ++ failure.message], failure.exitCode⟩

/-- A fault in the arguments. -/
def ofFault (fault : UsageFault) : Outcome := ⟨none, none, ["error: " ++ fault.message], 2⟩

/-- What becomes of an outcome whose file cannot be written. -/
def unwritten (path reason : String) : Outcome :=
  ⟨none, none, ["Error writing to " ++ path ++ ": " ++ reason], 3⟩

end Outcome

/-! ### Reading -/

/-- Read a JSON file. -/
def readJson (files : String → FileContent) (path : String) : Except Failure Json :=
  match files path with
  | .missing => .error (.fileNotFound path)
  | .unreadable reason => .error (.unreadableFile path reason)
  | .text content =>
    match Json.read content with
    | some value => .ok value
    | none => .error .invalidJson

/-- Read a document. -/
def readDocument (files : String → FileContent) (path : String) : Except Failure Document := do
  let value ← readJson files path
  (Document.ofJson value).mapError .invalidDocument

/-- Read bundles, each registered under the id it states. -/
def readStore (files : String → FileContent) (paths : List String) : Except Failure Store :=
  paths.foldlM (fun store path => do
    let bundle ← readDocument files path
    pure (store.registerStated bundle)) .empty

/-- Read a profile; without a path it is the built-in one. -/
def readProfile (files : String → FileContent) : Option String → Except Failure Profile
  | none => .ok .typescript
  | some path => do
    let value ← readJson files path
    (Profile.ofJson value).mapError .invalidDocument

/-! ### Running -/

namespace Command

/-- The result of a command and the reports of what failed in it. -/
def result (command : Command) (files : String → FileContent) :
    Except Failure (Json × List Report) := do
  let store ← readStore files command.bundles
  match command.action with
  | .resolve path target preserveUnions => do
    let document ← readDocument files path
    let value ← resolveTarget ⟨document, store, preserveUnions⟩ target
    pure (value, [])
  | .project path target profile options => do
    let document ← readDocument files path
    let profile ← readProfile files profile
    let projected ← projectTarget document store target profile options
    pure (projected.toJson, [])
  | .generate paths profile options => do
    let documents ← paths.mapM (readDocument files)
    let profile ← readProfile files profile
    let outputs := generateModules documents store profile options
    pure (.array (outputs.map ModuleOutput.toJson), outputs.flatMap ModuleOutput.errors)
  | .localize path => do
    let document ← readDocument files path
    let value ← store.localize document
    pure (value, [])

/-- The outcome of a command.  Only standard output ends in a line feed. -/
def run (command : Command) (files : String → FileContent) : Outcome :=
  match command.result files with
  | .error failure => .ofFailure failure
  | .ok (value, reports) =>
    let text := if command.pretty then value.pretty else value.compact
    ⟨some (if command.output.isSome then text else text ++ "\n"), command.output,
      reports.map fun report => "Error: " ++ report.line, if reports.isEmpty then 0 else 1⟩

/-- The files that a command may read. -/
def inputs (command : Command) : List String :=
  command.bundles ++
    match command.action with
    | .resolve path _ _ => [path]
    | .project path _ profile _ => path :: profile.toList
    | .generate paths profile _ => paths ++ profile.toList
    | .localize path => [path]

end Command

/-! ### Invocations -/

/-- The name and version of the program. -/
def versionText : String := "openrpc-shapes 0.1.0\n"

/-- How to call the program. -/
def helpLines : List String :=
  ["Resolve OpenRPC schemas and synthesize type shapes",
    "",
    "Usage:",
    "  openrpc-shapes resolve <DOCUMENT> <TARGET> [--collapse-unions] [COMMON]",
    "  openrpc-shapes project <DOCUMENT> <TARGET> [PROJECTION] [COMMON]",
    "  openrpc-shapes generate <DOCUMENT>... [PROJECTION] [COMMON]",
    "  openrpc-shapes localize <DOCUMENT> [COMMON]",
    "",
    "Target:",
    "  --schema <NAME> or --method <NAME>",
    "",
    "Projection:",
    "  --profile <FILE>, --tuples-as-arrays, --degrade-tuples, --event, --no-expand-enums,",
    "  --inline-named, --proxy <PRIMITIVE=NAME> (repeatable)",
    "",
    "Common:",
    "  --bundle <FILE> (repeatable), --output <FILE>, --pretty"]

/-- The lines of a text, each ended by a line feed. -/
def ofLines (lines : List String) : String := String.join (lines.map fun line => line ++ "\n")

/-- The files that arguments may read. -/
def Invocation.inputs : Except UsageFault Invocation → List String
  | .ok (.run command) => command.inputs
  | _ => []

/-- The outcome of arguments. -/
def Invocation.outcome (files : String → FileContent) : Except UsageFault Invocation → Outcome
  | .error fault => .ofFault fault
  | .ok .help => .ofText (ofLines helpLines)
  | .ok .version => .ofText versionText
  | .ok (.run command) => command.run files

end RpcSchema
