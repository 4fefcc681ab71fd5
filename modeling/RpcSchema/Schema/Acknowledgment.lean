import RpcSchema.Schema.Basic
import RpcSchema.Reference

/-!
# Subscription acknowledgments

An event method first answers with an acknowledgment of the subscription and
delivers its payload later.  The schema of the acknowledgment is known by its
name.  It is never part of a payload: it is left out of unions that are
collapsed, and never chosen as the payload of an event.

## Main definitions

* `Schema.isAcknowledgment` — whether a schema is the acknowledgment.
* `Schema.payloadBranch?` — the payload among the branches of a union.
* `Schema.eventPayload` — the payload of an event's result.
-/

namespace RpcSchema

/-- The name of the schema of acknowledgments. -/
def acknowledgmentName : String := "ListenResponse"

namespace Schema

/-- Whether the schema is the acknowledgment, by title or as a reference. -/
def isAcknowledgment (schema : Schema) : Bool :=
  schema.title = some acknowledgmentName ||
    match schema.kind with
    | .ref reference => Reference.name reference = acknowledgmentName
    | _ => false

/-- The first branch that is not the acknowledgment. -/
def payloadBranch? (branches : List Schema) : Option Schema :=
  branches.find? fun branch => !branch.isAcknowledgment

/-- The payload of an event's result: the payload branch of a union that has one,
and any other schema itself. -/
def eventPayload (schema : Schema) : Schema :=
  match schema.kind with
  | .anyOf branches => (payloadBranch? branches).getD schema
  | _ => schema

end Schema

end RpcSchema
