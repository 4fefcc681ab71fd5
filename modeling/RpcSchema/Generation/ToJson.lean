import RpcSchema.Generation
import RpcSchema.Shape.ToJson

/-!
# Results as JSON

How declarations, methods, modules and reports are written.  Members without a
value are left out.

## Main definitions

* `Declaration.toJson`, `ProjectedMethod.toJson` — parts of a module.
* `Projected.toJson` — the projection of one target.
* `ModuleOutput.toJson` — everything in a module.
-/

namespace RpcSchema

/-- A declaration as JSON. -/
def Declaration.toJson (declaration : Declaration) : Json :=
  .object ([("name", .string declaration.name)] ++ typeRefMember declaration.typeRef
    ++ textMember "description" declaration.description
    ++ [("shape", declaration.shape.toJson)])

/-- Declarations as JSON. -/
def Declaration.listToJson (declarations : List Declaration) : Json :=
  .array (declarations.map Declaration.toJson)

/-- A parameter or result as JSON. -/
def ProjectedParam.toJson (param : ProjectedParam) : Json :=
  .object ([("name", .string param.name), ("required", .bool param.required)]
    ++ textMember "summary" param.summary ++ typeRefMember param.typeRef
    ++ [("shape", param.shape.toJson)])

/-- A method as JSON. -/
def ProjectedMethod.toJson (method : ProjectedMethod) : Json :=
  .object ([("name", .string method.name)] ++ textMember "summary" method.summary
    ++ [("event", .bool method.event),
      ("params", .array (method.params.map ProjectedParam.toJson))]
    ++ method.result.toList.map fun result => ("result", result.toJson))

/-- The projection of a target as JSON. -/
def Projected.toJson : Projected → Json
  | .schema declaration supporting =>
    .object [("target", .string "schema"), ("declaration", declaration.toJson),
      ("supporting", Declaration.listToJson supporting)]
  | .method projected supporting =>
    .object [("target", .string "method"), ("method", projected.toJson),
      ("supporting", Declaration.listToJson supporting)]

/-- A report as JSON. -/
def Report.toJson (report : Report) : Json :=
  .object ([("document", .string report.document)] ++ textMember "path" report.path
    ++ textMember "method" report.method ++ [("message", .string report.message)])

/-- A module as JSON. -/
def ModuleOutput.toJson (output : ModuleOutput) : Json :=
  .object [("module", .string output.module),
    ("declarations", Declaration.listToJson output.declarations),
    ("methods", .array (output.methods.map ProjectedMethod.toJson)),
    ("errors", .array (output.errors.map Report.toJson))]

end RpcSchema
