import RpcSchema.Document.Basic
import RpcSchema.Schema.OfJson
import RpcSchema.Unification.Conflict

/-!
# Failures

Everything that can go wrong between reading a document and projecting its
schemas, and the reports of it.

## Main definitions

* `Failure` — the causes.
* `Failure.message`, `Failure.exitCode` — their wording, and the exit code that
  a program ends with.
* `Report` — a failure as it is listed with the results of a module.
-/

namespace RpcSchema

/-- Why an array by position cannot be rendered. -/
inductive TupleFault
  /-- It was to be combined with another array. -/
  | combined
  /-- Its items differ, and the target language has no tuples. -/
  | mixed

/-- The wording of a fault. -/
def TupleFault.message : TupleFault → String
  | .combined => Conflict.tuples.message
  | .mixed => "heterogeneous tuple on a profile without tuple types"

/-- What can go wrong.  `document` is the title of a document and `path` a pointer
into it. -/
inductive Failure
  | fileNotFound (path : String)
  | unreadableFile (path reason : String)
  | invalidJson
  | invalidDocument (fault : DocumentFault)
  /-- A reference has no target. -/
  | unresolvedReference (document path reference : String)
  /-- The schemas of a composition conflict. -/
  | irreconcilable (document path : String) (conflict : Conflict)
  | unsupportedTuple (document path : String) (fault : TupleFault)
  /-- A value is not a schema. -/
  | malformedSchema (document : String) (value : MisplacedValue)
  /-- There is no schema or method of a name. -/
  | unknownTarget (document name : String)

namespace Failure

/-- A conflict in the composition at a path. -/
def ofConflict (document path : String) : Conflict → Failure
  | .tuples => .unsupportedTuple document path .combined
  | conflict => .irreconcilable document path conflict

/-- A path within a document. -/
def place (document path : String) : String := " at " ++ path ++ " in " ++ document

/-- The wording of a failure. -/
def message : Failure → String
  | .fileNotFound path => "file not found: " ++ path
  | .unreadableFile path reason => "cannot read " ++ path ++ ": " ++ reason
  | .invalidJson => "invalid JSON"
  | .invalidDocument fault => "invalid document: " ++ fault.message
  | .unresolvedReference document path reference =>
    "unresolved reference \"" ++ reference ++ "\"" ++ place document path
  | .irreconcilable document path conflict =>
    "irreconcilable union" ++ place document path ++ ": " ++ conflict.message
  | .unsupportedTuple document path fault =>
    "unsupported tuple" ++ place document path ++ ": " ++ fault.message
  | .malformedSchema document value =>
    "malformed schema" ++ place document value.path ++ ": " ++ value.fault.message
  | .unknownTarget document name =>
    "no schema or method named \"" ++ name ++ "\" in " ++ document

/-- The exit code of a program that ends with a failure: 3 for files that cannot
be read, 2 for all else. -/
def exitCode : Failure → Nat
  | .fileNotFound _ => 3
  | .unreadableFile _ _ => 3
  | _ => 2

/-- The title of the document that a failure lies in, when it is known. -/
def document? : Failure → Option String
  | .unresolvedReference document _ _ => some document
  | .irreconcilable document _ _ => some document
  | .unsupportedTuple document _ _ => some document
  | .malformedSchema document _ => some document
  | .unknownTarget document _ => some document
  | _ => none

/-- The pointer to the schema at fault, when it is known. -/
def path? : Failure → Option String
  | .unresolvedReference _ path _ => some path
  | .irreconcilable _ path _ => some path
  | .unsupportedTuple _ path _ => some path
  | .malformedSchema _ value => some value.path
  | _ => none

end Failure

/-- A failure as it is listed with the results of a module. -/
structure Report where
  /-- The title of the document; empty when the failure is tied to none. -/
  document : String
  path : Option String
  /-- The method whose parameters or result failed. -/
  method : Option String
  message : String

namespace Report

/-- The report of a failure. -/
def ofFailure (failure : Failure) (method : Option String) : Report :=
  ⟨failure.document?.getD "", failure.path?, method, failure.message⟩

/-- A report in one line. -/
def line (report : Report) : String :=
  match report.method with
  | some method => report.document ++ " " ++ method ++ ": " ++ report.message
  | none => report.document ++ ": " ++ report.message

end Report

end RpcSchema
