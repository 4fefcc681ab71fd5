import RpcSchema.Projection
import RpcSchema.Proofs.Outcome
import RpcSchema.Proofs.Schema.Parts

/-!
# Failures of projection

Arrays by position are all that can fail to be rendered, and where they do the failure says in which
document and at which path.  Whether one fails is up to the language, the options and its own items,
and not to where it stands: so a schema is rendered if the language has tuples, if arrays of
anything may stand for them, or if in each array by position, at every depth, all items are alike.

Type references and shapes are computed by recursions of one form: parts are rendered one after the
other, and the results are put together.  What an outcome is therefore passes through each step.

## Main definitions

* `Kind.HasAlikeItems`, `Schema.TuplesAlike` — the items of arrays by position are alike.
* `Projector.Settles` — an outcome is a value or the one failure, and surely a value under a
  condition.

## Main results

* `Projector.settles_typeRef`, `Projector.settles_expand` — the outcomes of projection.
* `Projector.projection_settles` — the only failure, and when there is none.
-/

namespace RpcSchema

/-! ### Arrays by position whose items are alike -/

/-- An array by position has items, and all of them are equal in shape and title. -/
def Kind.HasAlikeItems : Kind → Prop
  | .tuple items => items ≠ [] ∧
    ∀ item ∈ items, ∀ other ∈ items, (item.kind == other.kind) = true ∧ item.title = other.title
  | _ => True

instance : DecidablePred Kind.HasAlikeItems
  | .tuple items => inferInstanceAs (Decidable (items ≠ [] ∧
      ∀ item ∈ items, ∀ other ∈ items, (item.kind == other.kind) = true ∧ item.title = other.title))
  | .ref _ | .const _ | .enum _ _ | .object _ | .list | .listOf _ | .allOf _ | .anyOf _
  | .primitive _ | .empty | .never => isTrue trivial

/-- In all arrays by position, at every depth, the items are alike. -/
def Schema.TuplesAlike (schema : Schema) : Prop :=
  schema.Every fun inner => inner.kind.HasAlikeItems

instance : DecidablePred Schema.TuplesAlike := fun schema =>
  inferInstanceAs (Decidable (schema.Every _))

namespace Projector

variable {projector : Projector} {sure : Prop} {α β : Type} {schema : Schema} {kind : Kind}
  {items : List Schema} {fields : Fields Schema} {visiting : List String}

/-! ### Outcomes -/

/-- The failure of projection: an array by position that the language has no type for. -/
def mixedTuple (projector : Projector) : Failure :=
  .unsupportedTuple projector.context.title projector.path .mixed

/-- The outcome is a value or the one failure, and a value if it is `sure`. -/
structure Settles (projector : Projector) (sure : Prop) (outcome : Except Failure α) : Prop where
  failure : ∀ failure, outcome = .error failure → failure = projector.mixedTuple
  value : sure → ∃ value, outcome = .ok value

namespace Settles

theorem ok (value : α) : projector.Settles sure (.ok value) where
  failure _ h := by cases h
  value _ := ⟨value, rfl⟩

/-- **One step after the other.** -/
theorem bind {outcome : Except Failure α} {next : α → Except Failure β}
    (h : projector.Settles sure outcome)
    (hnext : ∀ value, outcome = .ok value → projector.Settles sure (next value)) :
    projector.Settles sure (outcome >>= next) := by
  cases houtcome : outcome with
  | error failure =>
    constructor
    · intro other hother
      obtain rfl : failure = other := Except.error.inj hother
      exact h.failure failure houtcome
    · intro hsure
      obtain ⟨value, hvalue⟩ := h.value hsure
      cases houtcome.symm.trans hvalue
  | ok value => exact hnext value houtcome

/-- What is put together of a value settles as the value does. -/
theorem map {outcome : Except Failure α} (h : projector.Settles sure outcome) (f : α → β) :
    projector.Settles sure (outcome >>= fun value => .ok (f value)) :=
  h.bind fun value _ => .ok (f value)

end Settles

/-! ### The forms of arrays by position -/

theorem alike_eq_true (hne : items ≠ [])
    (h : ∀ item ∈ items, ∀ other ∈ items,
      (item.kind == other.kind) = true ∧ item.title = other.title) : alike items = true := by
  cases items with
  | nil => exact absurd rfl hne
  | cons first rest =>
    rw [alike, List.all_eq_true]
    intro item hitem
    obtain ⟨hkind, htitle⟩ := h item (List.mem_cons_of_mem _ hitem) first List.mem_cons_self
    simp [hkind, htitle]

/-- The schema can be rendered for sure. -/
def Renders (projector : Projector) (schema : Schema) : Prop :=
  projector.profile.tuples = true ∨ projector.options.degradeTuples = true ∨ schema.TuplesAlike

theorem Renders.part (h : projector.Renders schema) {part : Schema}
    (hpart : part ∈ schema.kind.parts) : projector.Renders part :=
  h.imp_right fun h => h.imp_right fun halike => Schema.Every.parts halike part hpart

/-- An array by position has a form, unless the language has no tuples, its items differ and no
array of anything may stand for it. -/
theorem settles_tupleForm (h : sure → projector.profile.tuples = true ∨
    projector.options.degradeTuples = true ∨ alike items = true) :
    projector.Settles sure (projector.tupleForm items) := by
  unfold tupleForm
  split
  · exact .ok _
  · next hsequence =>
    split
    · exact .ok _
    · next htuples =>
      split
      · exact .ok _
      · next hdegrade =>
        refine ⟨fun failure hfailure => (Except.error.inj hfailure).symm, fun hsure => ?_⟩
        rcases h hsure with h | h | h
        · exact absurd h htuples
        · exact absurd h hdegrade
        · exact absurd (by simp [h, htuples]) hsequence

/-! ### Type references of parts -/

section Refs

theorem settles_typeRefs (h : ∀ item ∈ items, projector.Settles sure (projector.typeRef item)) :
    projector.Settles sure (projector.typeRefs items) := by
  induction items with
  | nil => exact .ok _
  | cons item rest ih =>
    obtain ⟨hitem, hrest⟩ := List.forall_mem_cons.mp h
    rw [typeRefs]
    exact hitem.bind fun ref _ => (ih hrest).map _

theorem settles_headRef (h : ∀ item ∈ items, projector.Settles sure (projector.typeRef item)) :
    projector.Settles sure (projector.headRef items) := by
  cases items with
  | nil => exact .ok _
  | cons item rest => exact h item List.mem_cons_self

theorem settles_payloadRef (h : ∀ item ∈ items, projector.Settles sure (projector.typeRef item)) :
    projector.Settles sure (projector.payloadRef items) := by
  induction items with
  | nil => exact .ok _
  | cons item rest ih =>
    obtain ⟨hitem, hrest⟩ := List.forall_mem_cons.mp h
    rw [payloadRef]
    split
    · exact ih hrest
    · exact hitem

theorem settles_fieldRefs (required : List String)
    (h : ∀ entry ∈ fields, projector.Settles sure (projector.typeRef entry.2)) :
    projector.Settles sure (projector.fieldRefs required fields) := by
  induction fields with
  | nil => exact .ok _
  | cons entry rest ih =>
    obtain ⟨name, schema⟩ := entry
    obtain ⟨hschema, hrest⟩ := List.forall_mem_cons.mp h
    rw [fieldRefs]
    exact hschema.bind fun ref _ => (ih hrest).map _

theorem settles_patternRefs (seen : List Schema)
    (h : ∀ entry ∈ fields, projector.Settles sure (projector.typeRef entry.2)) :
    projector.Settles sure (projector.patternRefs seen fields) := by
  induction fields generalizing seen with
  | nil => exact .ok _
  | cons entry rest ih =>
    obtain ⟨name, schema⟩ := entry
    obtain ⟨hschema, hrest⟩ := List.forall_mem_cons.mp h
    rw [patternRefs]
    split
    · exact ih seen hrest
    · exact hschema.bind fun ref _ => (ih _ hrest).map _

theorem settles_additionalRefs {additional : Additional}
    (h : ∀ value, additional = .schema value → projector.Settles sure (projector.typeRef value)) :
    projector.Settles sure (projector.additionalRefs additional) := by
  cases additional with
  | schema value => exact (h value rfl).map _
  | _ => exact .ok _

theorem settles_objectRef {object : ObjectSchema}
    (h : ∀ part ∈ object.parts, projector.Settles sure (projector.typeRef part)) :
    projector.Settles sure (projector.objectRef object) := by
  obtain ⟨hproperties, hadditional, hpatterns⟩ := ObjectSchema.forall_parts_iff.mp h
  obtain ⟨properties, required, additional, patterns, names⟩ := object
  rw [objectRef]
  split
  · exact (settles_additionalRefs hadditional).bind fun first _ =>
      (settles_patternRefs _ hpatterns).map _
  · exact (settles_fieldRefs required hproperties).map _

/-- The type reference of an untitled schema settles if an array by position has a form and the
type references of the parts settle. -/
theorem settles_kindRef
    (hform : ∀ items, kind = .tuple items → projector.Settles sure (projector.tupleForm items))
    (h : ∀ part ∈ kind.parts, projector.Settles sure (projector.typeRef part)) :
    projector.Settles sure (projector.kindRef kind) := by
  cases kind with
  | enum type values =>
    cases type <;>
    · rw [kindRef]
      split <;> exact .ok _
  | object object => exact settles_objectRef h
  | listOf item => exact (h item (List.mem_singleton_self _)).map _
  | tuple items =>
    rw [kindRef]
    refine (hform items rfl).bind fun form _ => ?_
    cases form with
    | sequence => exact (settles_headRef h).map _
    | tuple => exact (settles_typeRefs h).map _
    | degraded => exact .ok _
  | anyOf branches =>
    rw [kindRef]
    split
    · exact settles_payloadRef h
    · exact (settles_typeRefs h).map _
  | _ => exact .ok _

end Refs

/-- An array by position that can be rendered for sure has a form. -/
theorem settles_tupleForm_of_renders (h : sure → projector.Renders schema)
    (hkind : schema.kind = .tuple items) : projector.Settles sure (projector.tupleForm items) := by
  refine settles_tupleForm fun hsure => ?_
  refine (h hsure).imp_right fun h => h.imp_right fun halike => ?_
  have hown : schema.kind.HasAlikeItems := halike.own
  rw [hkind] at hown
  obtain ⟨hne, hitems⟩ := hown
  exact alike_eq_true hne hitems

/-- **The type reference of a schema settles**, by induction on the schema. -/
theorem settles_typeRef (h : sure → projector.Renders schema) :
    projector.Settles sure (projector.typeRef schema) := by
  induction schema using Schema.induction_parts with
  | h schema ih =>
    have hform : ∀ items, schema.kind = .tuple items →
        projector.Settles sure (projector.tupleForm items) := fun items hkind =>
      settles_tupleForm_of_renders h hkind
    have hparts : ∀ part ∈ schema.kind.parts,
        projector.Settles sure (projector.typeRef part) := fun part hpart =>
      ih part hpart fun hsure => (h hsure).part hpart
    obtain ⟨title, description, kind, extra⟩ := schema
    rw [typeRef]
    split
    · exact .ok _
    · exact settles_kindRef hform hparts

/-! ### Shapes of parts -/

section Shapes

/-- The shape of the schema settles wherever the schema is used. -/
def SettlesUsed (projector : Projector) (sure : Prop) (schema : Schema) : Prop :=
  ∀ visiting, projector.Settles sure (projector.expand visiting false schema)

theorem settles_shapes (h : ∀ item ∈ items, projector.SettlesUsed sure item) :
    projector.Settles sure (projector.shapes visiting items) := by
  induction items with
  | nil => exact .ok _
  | cons item rest ih =>
    obtain ⟨hitem, hrest⟩ := List.forall_mem_cons.mp h
    rw [shapes]
    exact (hitem visiting).bind fun shape _ => (ih hrest).map _

theorem settles_headShape (h : ∀ item ∈ items, projector.SettlesUsed sure item) :
    projector.Settles sure (projector.headShape visiting items) := by
  cases items with
  | nil => exact .ok _
  | cons item rest => exact h item List.mem_cons_self visiting

theorem settles_payloadShape (h : ∀ item ∈ items, projector.SettlesUsed sure item) :
    projector.Settles sure (projector.payloadShape visiting items) := by
  induction items with
  | nil => exact .ok _
  | cons item rest ih =>
    obtain ⟨hitem, hrest⟩ := List.forall_mem_cons.mp h
    rw [payloadShape]
    split
    · exact ih hrest
    · exact hitem visiting

theorem settles_patternShape (h : ∀ entry ∈ fields, projector.SettlesUsed sure entry.2) :
    projector.Settles sure (projector.patternShape visiting fields) := by
  cases fields with
  | nil => exact .ok _
  | cons entry rest => exact h entry List.mem_cons_self visiting

/-- Properties have a type reference and a shape each. -/
theorem settles_propertyShapes (required : List String)
    (href : ∀ entry ∈ fields, projector.Settles sure (projector.typeRef entry.2))
    (h : ∀ entry ∈ fields, projector.SettlesUsed sure entry.2) :
    projector.Settles sure (projector.propertyShapes visiting required fields) := by
  induction fields with
  | nil => exact .ok _
  | cons entry rest ih =>
    obtain ⟨name, schema⟩ := entry
    obtain ⟨hrefSchema, hrefRest⟩ := List.forall_mem_cons.mp href
    obtain ⟨hschema, hrest⟩ := List.forall_mem_cons.mp h
    rw [propertyShapes]
    exact hrefSchema.bind fun ref _ => (hschema visiting).bind fun shape _ =>
      (ih hrefRest hrest).map _

theorem settles_objectShape {object : ObjectSchema}
    (href : ∀ part ∈ object.parts, projector.Settles sure (projector.typeRef part))
    (h : ∀ part ∈ object.parts, projector.SettlesUsed sure part) :
    projector.Settles sure (projector.objectShape visiting object) := by
  obtain ⟨hrefProperties, hrefAdditional, hrefPatterns⟩ := ObjectSchema.forall_parts_iff.mp href
  obtain ⟨hproperties, hadditional, hpatterns⟩ := ObjectSchema.forall_parts_iff.mp h
  obtain ⟨declared, required, additional, patterns, names⟩ := object
  rw [objectShape]
  refine (settles_propertyShapes required hrefProperties hproperties).bind fun properties _ => ?_
  refine (settles_additionalRefs hrefAdditional).bind fun first _ => ?_
  refine (settles_patternRefs _ hrefPatterns).bind fun others _ => ?_
  split
  · exact .ok _
  · exact .ok _
  · -- The lone type has a shape of its own.
    split
    · exact (hadditional _ rfl visiting).map _
    · exact (settles_patternShape hpatterns).map _
  · exact .ok _

/-- The shape of a kind settles if an array by position has a form and both renderings of the parts
settle. -/
theorem settles_kindShape
    (hform : ∀ items, kind = .tuple items → projector.Settles sure (projector.tupleForm items))
    (href : ∀ part ∈ kind.parts, projector.Settles sure (projector.typeRef part))
    (h : ∀ part ∈ kind.parts, projector.SettlesUsed sure part) :
    projector.Settles sure (projector.kindShape visiting kind) := by
  cases kind with
  | object object => exact settles_objectShape href h
  | listOf item =>
    rw [kindShape]
    have hitem := List.mem_singleton_self item
    exact (h item hitem visiting).bind fun element _ => (href item hitem).map _
  | tuple items =>
    rw [kindShape]
    refine (hform items rfl).bind fun form _ => ?_
    cases form with
    | sequence => exact (settles_headShape h).bind fun element _ => (settles_headRef href).map _
    | tuple => exact (settles_shapes h).bind fun elements _ => (settles_typeRefs href).map _
    | degraded => exact .ok _
  | anyOf branches =>
    rw [kindShape]
    split
    · exact settles_payloadShape h
    · exact (settles_typeRefs href).map _
  | _ => exact .ok _

end Shapes

/-- **The shape of a schema settles**, at its declaration and at a use.  By induction on the schema:
both renderings of its parts are asked for. -/
theorem settles_expand (h : sure → projector.Renders schema) (top : Bool) :
    projector.Settles sure (projector.expand visiting top schema) := by
  induction schema using Schema.induction_parts generalizing visiting top with
  | h schema ih =>
    have hform : ∀ items, schema.kind = .tuple items →
        projector.Settles sure (projector.tupleForm items) := fun items hkind =>
      settles_tupleForm_of_renders h hkind
    have hrefs : ∀ part ∈ schema.kind.parts,
        projector.Settles sure (projector.typeRef part) := fun part hpart =>
      settles_typeRef fun hsure => (h hsure).part hpart
    have hparts : ∀ part ∈ schema.kind.parts, projector.SettlesUsed sure part :=
      fun part hpart visiting => ih part hpart (fun hsure => (h hsure).part hpart) false
    obtain ⟨title, description, kind, extra⟩ := schema
    unfold expand
    split
    · exact .ok _
    · exact .ok _
    · split
      · exact .ok _
      · exact settles_kindShape hform hrefs hparts
    · exact settles_kindShape hform hrefs hparts

/-! ### Projection -/

/-- **The failures of projection.**  For every schema, profile, set of options, store, document and
path: the type reference of the schema and its shape, at its declaration and at a use, fail only
with an array by position that is not supported, in this document and at this path.  They are there
if the language has tuples or arrays of anything may stand for them; and they are there without
either if in every array by position within the schema there are items, all equal in shape and
title. -/
theorem projection_settles (projector : Projector) (schema : Schema) :
    (∀ failure, projector.typeRef schema = .error failure ∨
        projector.shape schema = .error failure ∨ projector.useShape schema = .error failure →
      failure = .unsupportedTuple projector.context.title projector.path .mixed) ∧
    (projector.profile.tuples = true ∨ projector.options.degradeTuples = true ∨
        schema.TuplesAlike →
      (∃ ref, projector.typeRef schema = .ok ref) ∧
        (∃ shape, projector.shape schema = .ok shape) ∧
        ∃ shape, projector.useShape schema = .ok shape) := by
  have href : projector.Settles (projector.Renders schema) (projector.typeRef schema) :=
    settles_typeRef id
  have hshape : projector.Settles (projector.Renders schema) (projector.shape schema) :=
    settles_expand id true
  have huse : projector.Settles (projector.Renders schema) (projector.useShape schema) :=
    settles_expand id false
  refine ⟨fun failure hfailure => ?_, fun hrenders => ?_⟩
  · rcases hfailure with hfailure | hfailure | hfailure
    · exact href.failure failure hfailure
    · exact hshape.failure failure hfailure
    · exact huse.failure failure hfailure
  · exact ⟨href.value hrenders, hshape.value hrenders, huse.value hrenders⟩

/-- Render in a language without tuples. -/
def plainProjector : Projector := ⟨{ Profile.typescript with tuples := false }, .standard, .empty,
  ⟨none, "Drawing", .object []⟩, "#/components/schemas/Segment"⟩

/-- The ends of a segment, each of which is a pair of coordinates. -/
def segmentSchema : Schema :=
  let coordinate : Schema := .ofKind (.primitive .number)
  let point : Schema := .ofKind (.tuple [coordinate, coordinate])
  .ofKind (.object ⟨[("ends", .ofKind (.tuple [point, point]))], ["ends"], .unstated, [], none⟩)

/-- A label is a text and the size to write it in. -/
def labelSchema : Schema :=
  .ofKind (.tuple [.ofKind (.primitive .string), .ofKind (.primitive .number)])

/-- Pairs of pairs are arrays of arrays, and a label is not supported. -/
theorem projection_settles_segmentSchema :
    plainProjector.profile.tuples = false ∧ plainProjector.options.degradeTuples = false ∧
      segmentSchema.TuplesAlike ∧ (∃ shape, plainProjector.shape segmentSchema = .ok shape) ∧
      plainProjector.typeRef segmentSchema = .ok "\x7b ends: number[][] \x7d" ∧
      ∃ failure, plainProjector.typeRef labelSchema = .error failure ∧
        failure = .unsupportedTuple "Drawing" "#/components/schemas/Segment" .mixed := by
  have halike : segmentSchema.TuplesAlike := by decide
  obtain ⟨-, hrenders⟩ := projection_settles plainProjector segmentSchema
  obtain ⟨-, hshape, -⟩ := hrenders (.inr (.inr halike))
  obtain ⟨hfails, -⟩ := projection_settles plainProjector labelSchema
  exact ⟨rfl, rfl, halike, hshape, rfl, _, rfl, hfails _ (.inl rfl)⟩

end Projector

end RpcSchema
