import RpcSchema.Proofs.Projection.Uses

/-!
# Payloads of events

What an event delivers is told without regard to the code: a schema delivers itself, unless it is a
union without a title; such a union delivers what its first branch delivers that is not the
acknowledgment, and nothing when all its branches are.  Each schema delivers one thing, and the
acknowledgment is delivered by itself only.

In event context a union without a title is rendered as what it delivers.  The payload is selected
before the result is projected, and again where a union is projected, at every depth; all of these
take the same branch.  So the selection before changes nothing.

## Main definitions

* `Schema.IsBareUnion` — a union without a title.
* `Schema.Delivers` — what a schema delivers, if anything.

## Main results

* `Schema.exists_delivers`, `Schema.Delivers.unique` — each schema delivers one thing.
* `Projector.typeRef_of_delivers`, `Projector.useShape_of_delivers` — a schema is rendered as what
  it delivers.
* `Projector.eventPayload_rendered` — the payload of an event, its union and what it delivers.
-/

namespace RpcSchema

namespace Schema

/-- A union without a title. -/
def IsBareUnion (schema : Schema) : Prop :=
  schema.title = none ∧ ∃ branches, schema.kind = .anyOf branches

/-- `schema.Delivers result` says that the schema of an event's result delivers `result`, which is
nothing if there are acknowledgments only. -/
inductive Delivers : Schema → Option Schema → Prop
  /-- What is not a bare union is delivered. -/
  | self {schema : Schema} (hother : ¬schema.IsBareUnion) : Delivers schema (some schema)
  /-- A union delivers what the first branch behind its acknowledgments delivers. -/
  | branch {schema branch : Schema} {before after : List Schema} {result : Option Schema}
      (htitle : schema.title = none) (hkind : schema.kind = .anyOf (before ++ branch :: after))
      (hbefore : ∀ other ∈ before, other.isAcknowledgment = true)
      (hbranch : branch.isAcknowledgment = false) (h : Delivers branch result) :
      Delivers schema result
  /-- A union of acknowledgments delivers nothing. -/
  | nothing {schema : Schema} {branches : List Schema} (htitle : schema.title = none)
      (hkind : schema.kind = .anyOf branches)
      (hall : ∀ other ∈ branches, other.isAcknowledgment = true) : Delivers schema none

variable {schema branch : Schema} {branches : List Schema} {result result' : Option Schema}

/-! ### The payload branch -/

/-- The payload branch is the first one behind the acknowledgments. -/
theorem payloadBranch?_eq_some_iff : payloadBranch? branches = some branch ↔
    branch.isAcknowledgment = false ∧ ∃ before after, branches = before ++ branch :: after ∧
      ∀ other ∈ before, other.isAcknowledgment = true := by
  simp [payloadBranch?, List.find?_eq_some_iff_append]

theorem payloadBranch?_append {before : List Schema} (after : List Schema)
    (hbefore : ∀ other ∈ before, other.isAcknowledgment = true)
    (hbranch : branch.isAcknowledgment = false) :
    payloadBranch? (before ++ branch :: after) = some branch :=
  payloadBranch?_eq_some_iff.mpr ⟨hbranch, before, after, rfl, hbefore⟩

theorem payloadBranch?_eq_none_iff : payloadBranch? branches = none ↔
    ∀ other ∈ branches, other.isAcknowledgment = true := by
  simp [payloadBranch?]

theorem IsBareUnion.not_acknowledgment (h : schema.IsBareUnion) :
    schema.isAcknowledgment = false := by
  obtain ⟨htitle, branches, hkind⟩ := h
  simp [isAcknowledgment, htitle, hkind]

/-! ### What a schema delivers -/

/-- **What a bare union delivers**, by its payload branch. -/
theorem delivers_iff (htitle : schema.title = none) (hkind : schema.kind = .anyOf branches) :
    schema.Delivers result ↔ (∃ branch, payloadBranch? branches = some branch ∧
      branch.Delivers result) ∨ payloadBranch? branches = none ∧ result = none := by
  constructor
  · rintro (hother | ⟨-, hsplit, hbefore, hbranch, h⟩ | ⟨-, hsame, hall⟩)
    · exact absurd ⟨htitle, branches, hkind⟩ hother
    · obtain rfl := Kind.anyOf.inj (hkind.symm.trans hsplit)
      exact .inl ⟨_, payloadBranch?_append _ hbefore hbranch, h⟩
    · obtain rfl := Kind.anyOf.inj (hkind.symm.trans hsame)
      exact .inr ⟨payloadBranch?_eq_none_iff.mpr hall, rfl⟩
  · rintro (⟨branch, hpayload, h⟩ | ⟨hnone, rfl⟩)
    · obtain ⟨hbranch, before, after, rfl, hbefore⟩ := payloadBranch?_eq_some_iff.mp hpayload
      exact .branch htitle hkind hbefore hbranch h
    · exact .nothing htitle hkind (payloadBranch?_eq_none_iff.mp hnone)

/-- Each schema delivers something, or nothing: by induction on the schema. -/
theorem exists_delivers (schema : Schema) : ∃ result, schema.Delivers result := by
  induction schema using Schema.induction_parts with
  | h schema ih =>
    by_cases hunion : schema.IsBareUnion
    · obtain ⟨htitle, branches, hkind⟩ := hunion
      cases hpayload : payloadBranch? branches with
      | none => exact ⟨none, (delivers_iff htitle hkind).mpr (.inr ⟨hpayload, rfl⟩)⟩
      | some branch =>
        have hpart : branch ∈ schema.kind.parts := by
          rw [hkind]
          exact List.mem_of_find?_eq_some hpayload
        obtain ⟨result, h⟩ := ih branch hpart
        exact ⟨result, (delivers_iff htitle hkind).mpr (.inl ⟨branch, hpayload, h⟩)⟩
    · exact ⟨some schema, .self hunion⟩

/-- **The payload of a bare union delivers what the union delivers.** -/
theorem IsBareUnion.eventPayload_delivers (hunion : schema.IsBareUnion)
    (h : schema.Delivers result) : schema.eventPayload.Delivers result := by
  obtain ⟨htitle, branches, hkind⟩ := hunion
  have hpayload : schema.eventPayload = (payloadBranch? branches).getD schema := by
    rw [eventPayload, hkind]
  rcases (delivers_iff htitle hkind).mp h with ⟨branch, hbranch, hdelivers⟩ | ⟨hnone, -⟩
  · rwa [hpayload, hbranch]
  · rwa [hpayload, hnone]

namespace Delivers

/-- **A schema delivers one thing.** -/
theorem unique (h : schema.Delivers result) (h' : schema.Delivers result') : result' = result := by
  induction h with
  | self hother =>
    cases h' with
    | self => rfl
    | branch htitle hkind => exact absurd ⟨htitle, _, hkind⟩ hother
    | nothing htitle hkind => exact absurd ⟨htitle, _, hkind⟩ hother
  | @branch _ _ _ after _ htitle hkind hbefore hbranch _ ih =>
    have hpayload := payloadBranch?_append after hbefore hbranch
    rcases (delivers_iff htitle hkind).mp h' with ⟨branch', hpayload', h'⟩ | ⟨hnone, -⟩
    · obtain rfl := Option.some.inj (hpayload.symm.trans hpayload')
      exact ih h'
    · exact absurd (hpayload.symm.trans hnone) (Option.some_ne_none _)
  | nothing htitle hkind hall =>
    have hnone := payloadBranch?_eq_none_iff.mpr hall
    rcases (delivers_iff htitle hkind).mp h' with ⟨branch', hpayload', -⟩ | ⟨-, rfl⟩
    · exact absurd (hpayload'.symm.trans hnone) (Option.some_ne_none _)
    · rfl

/-- What is delivered is no bare union, and the acknowledgment only by itself. -/
theorem delivered (h : schema.Delivers result) {payload : Schema}
    (hpayload : result = some payload) :
    ¬payload.IsBareUnion ∧
      (schema.isAcknowledgment = false → payload.isAcknowledgment = false) := by
  induction h with
  | self hother =>
    obtain rfl := Option.some.inj hpayload
    exact ⟨hother, id⟩
  | branch _ _ _ hbranch _ ih =>
    obtain ⟨hother, hkept⟩ := ih hpayload
    exact ⟨hother, fun _ => hkept hbranch⟩
  | nothing => cases hpayload

end Delivers

end Schema

namespace Projector

variable {projector : Projector} {schema : Schema} {branches : List Schema}
  {result : Option Schema}

/-! ### Rendering what is delivered -/

/-- The branch that is taken for a type reference is the payload branch. -/
theorem payloadRef_eq (projector : Projector) (branches : List Schema) :
    projector.payloadRef branches =
      ((Schema.payloadBranch? branches).map projector.typeRef).getD
        (.ok (projector.template .void)) := by
  induction branches with
  | nil => rfl
  | cons branch rest ih =>
    rw [payloadRef, Schema.payloadBranch?, List.find?_cons]
    cases branch.isAcknowledgment with
    | true => exact ih
    | false => rfl

/-- The branch that is taken for a shape is the payload branch. -/
theorem payloadShape_eq (projector : Projector) (visiting : List String) (branches : List Schema) :
    projector.payloadShape visiting branches =
      ((Schema.payloadBranch? branches).map (projector.expand visiting false)).getD
        (.ok projector.voidShape) := by
  induction branches with
  | nil => rfl
  | cons branch rest ih =>
    rw [payloadShape, Schema.payloadBranch?, List.find?_cons]
    cases branch.isAcknowledgment with
    | true => exact ih
    | false => rfl

section Event

variable (hevent : projector.options.eventContext = true)

include hevent

theorem typeRef_of_bareUnion (htitle : schema.title = none)
    (hkind : schema.kind = .anyOf branches) :
    projector.typeRef schema = projector.payloadRef branches := by
  obtain ⟨_, description, _, extra⟩ := schema
  obtain rfl : _ = none := htitle
  obtain rfl : _ = Kind.anyOf branches := hkind
  rw [typeRef_of_untitled, kindRef, if_pos hevent]

theorem useShape_of_bareUnion (htitle : schema.title = none)
    (hkind : schema.kind = .anyOf branches) :
    projector.useShape schema = projector.payloadShape [] branches := by
  obtain ⟨_, description, _, extra⟩ := schema
  obtain rfl : _ = none := htitle
  obtain rfl : _ = Kind.anyOf branches := hkind
  change projector.kindShape [] (.anyOf branches) = _
  rw [kindShape, if_pos hevent]

/-- **The type reference of what is delivered**, or none to be had. -/
theorem typeRef_of_delivers (h : schema.Delivers result) :
    projector.typeRef schema =
      (result.map projector.typeRef).getD (.ok (projector.template .void)) := by
  induction h with
  | self => rfl
  | branch htitle hkind hbefore hbranch _ ih =>
    rw [typeRef_of_bareUnion hevent htitle hkind, payloadRef_eq,
      Schema.payloadBranch?_append _ hbefore hbranch, ← ih]
    rfl
  | nothing htitle hkind hall =>
    have hnone := Schema.payloadBranch?_eq_none_iff.mpr hall
    rw [typeRef_of_bareUnion hevent htitle hkind, payloadRef_eq, hnone]

/-- **The shape of what is delivered** at its use, or that of no result. -/
theorem useShape_of_delivers (h : schema.Delivers result) :
    projector.useShape schema =
      (result.map projector.useShape).getD (.ok projector.voidShape) := by
  induction h with
  | self => rfl
  | branch htitle hkind hbefore hbranch _ ih =>
    rw [useShape_of_bareUnion hevent htitle hkind, payloadShape_eq,
      Schema.payloadBranch?_append _ hbefore hbranch, ← ih]
    rfl
  | nothing htitle hkind hall =>
    have hnone := Schema.payloadBranch?_eq_none_iff.mpr hall
    rw [useShape_of_bareUnion hevent htitle hkind, payloadShape_eq, hnone]
    rfl

/-- **The payload of an event.**  In event context, whatever the profile, the store, the document
and the path are, selecting the payload of a union without a title changes neither its type
reference nor its shape at a use, and failures neither.  The union delivers one thing.  If that is a
schema, then it is no such union and not the acknowledgment, and the union is rendered as this
schema is; and if there are acknowledgments only, it is rendered as no result. -/
theorem eventPayload_rendered (hunion : schema.IsBareUnion) :
    projector.typeRef schema.eventPayload = projector.typeRef schema ∧
      projector.useShape schema.eventPayload = projector.useShape schema ∧
      (∃! result, schema.Delivers result) ∧
      (∀ payload, schema.Delivers (some payload) →
        ¬payload.IsBareUnion ∧ payload.isAcknowledgment = false ∧
          projector.typeRef schema = projector.typeRef payload ∧
          projector.useShape schema = projector.useShape payload) ∧
      (schema.Delivers none →
        projector.typeRef schema = .ok (projector.template .void) ∧
          projector.useShape schema = .ok projector.voidShape) := by
  obtain ⟨result, hdelivers⟩ := schema.exists_delivers
  have hpayload := hunion.eventPayload_delivers hdelivers
  refine ⟨?_, ?_, ⟨result, hdelivers, fun _ => hdelivers.unique⟩, fun payload h => ?_, fun h => ?_⟩
  · rw [typeRef_of_delivers hevent hpayload, typeRef_of_delivers hevent hdelivers]
  · rw [useShape_of_delivers hevent hpayload, useShape_of_delivers hevent hdelivers]
  · obtain ⟨hother, hkept⟩ := h.delivered rfl
    exact ⟨hother, hkept hunion.not_acknowledgment, typeRef_of_delivers hevent h,
      useShape_of_delivers hevent h⟩
  · exact ⟨typeRef_of_delivers hevent h, useShape_of_delivers hevent h⟩

end Event

/-- A union of the acknowledgment and another union, of a reference to the acknowledgment and an
array of integers. -/
def nestedTicksResult : Schema := ⟨none, none, .anyOf [
  ⟨some acknowledgmentName, none, .primitive .boolean, []⟩,
  ⟨none, none, .anyOf [⟨none, none, .ref "#/components/schemas/ListenResponse", []⟩,
    ⟨none, none, .listOf ⟨none, none, .primitive .integer, []⟩, []⟩], []⟩], []⟩

/-- Both unions are taken apart down to the array; and a union of the acknowledgment alone is
rendered as no result. -/
theorem eventPayload_rendered_nestedTicksResult :
    let silent : Schema := ⟨none, none, .anyOf [
      ⟨some acknowledgmentName, none, .primitive .boolean, []⟩], []⟩
    let ticks : Schema := ⟨none, none, .listOf ⟨none, none, .primitive .integer, []⟩, []⟩
    tickProjector.options.eventContext = true ∧ nestedTicksResult.IsBareUnion ∧
      silent.IsBareUnion ∧ nestedTicksResult.Delivers (some ticks) ∧
      tickProjector.typeRef nestedTicksResult = tickProjector.typeRef ticks ∧
      tickProjector.typeRef ticks = .ok "Tick[]" ∧
      tickProjector.typeRef nestedTicksResult.eventPayload =
        tickProjector.typeRef nestedTicksResult ∧
      tickProjector.useShape silent = .ok tickProjector.voidShape := by
  intro silent ticks
  have hevent : tickProjector.options.eventContext = true := rfl
  have hunion : nestedTicksResult.IsBareUnion := ⟨rfl, _, rfl⟩
  have hsilent : silent.IsBareUnion := ⟨rfl, _, rfl⟩
  have hdelivers : nestedTicksResult.Delivers (some ticks) := by
    refine (Schema.delivers_iff rfl rfl).mpr (.inl ⟨_, rfl, ?_⟩)
    have hother : ¬ticks.IsBareUnion := fun ⟨_, _, hkind⟩ => by cases hkind
    exact (Schema.delivers_iff rfl rfl).mpr (.inl ⟨_, rfl, .self hother⟩)
  obtain ⟨hselected, -, -, hpayload, -⟩ := eventPayload_rendered hevent hunion
  obtain ⟨-, -, -, -, hnothing⟩ := eventPayload_rendered hevent hsilent
  exact ⟨hevent, hunion, hsilent, hdelivers, (hpayload _ hdelivers).2.2.1, rfl, hselected,
    (hnothing (.nothing rfl rfl (by decide))).2⟩

end Projector

end RpcSchema
