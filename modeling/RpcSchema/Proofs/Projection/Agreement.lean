import RpcSchema.Generation
import RpcSchema.Proofs.Outcome
import RpcSchema.Proofs.Schema.Parts

/-!
# Projectors that agree

What a projector makes of a schema depends on its profile, its options and the modules that it
takes names to belong to, and on nothing else: its path is there for failures only, and the store
and the document for the modules of names.

## Main definitions

* `Projector.Agrees` — projectors of one profile and one set of options that qualify all names the
  same.

## Main results

* `Projector.Agrees.sameRef`, `Projector.Agrees.sameShape` — they render all schemas the same.
* `Projector.Agrees.toOption_declare`, `Projector.Agrees.toOption_method` — and so they do with
  declarations and methods.
-/

namespace RpcSchema

namespace Projector

/-- The projectors have one profile and one set of options, and qualify all names the same. -/
structure Agrees (projector projector' : Projector) : Prop where
  profile : projector'.profile = projector.profile
  options : projector'.options = projector.options
  qualify : ∀ name, projector'.qualify name = projector.qualify name

variable {projector projector' : Projector} {schema : Schema} {kind : Kind} {items : List Schema}
  {fields : Fields Schema} {visiting : List String}

/-! ### Type references of parts -/

/-- The type reference of the schema is the same to both projectors. -/
def SameRef (projector projector' : Projector) (schema : Schema) : Prop :=
  (projector'.typeRef schema).toOption = (projector.typeRef schema).toOption

theorem toOption_typeRefs (hitems : ∀ item ∈ items, projector.SameRef projector' item) :
    (projector'.typeRefs items).toOption = (projector.typeRefs items).toOption := by
  induction items with
  | nil => rfl
  | cons item rest ih =>
    obtain ⟨hitem, hrest⟩ := List.forall_mem_cons.mp hitems
    unfold SameRef at hitem
    simp only [typeRefs, toOption_bind, hitem, ih hrest]

theorem toOption_patternRefs (hfields : ∀ entry ∈ fields, projector.SameRef projector' entry.2)
    (seen : List Schema) :
    (projector'.patternRefs seen fields).toOption = (projector.patternRefs seen fields).toOption := by
  induction fields generalizing seen with
  | nil => rfl
  | cons entry rest ih =>
    obtain ⟨name, schema⟩ := entry
    obtain ⟨hschema, hrest⟩ := List.forall_mem_cons.mp hfields
    unfold SameRef at hschema
    rw [patternRefs, patternRefs]
    split
    · exact ih hrest seen
    · simp only [toOption_bind, hschema, ih hrest]

theorem toOption_additionalRefs {additional : Additional}
    (hvalue : ∀ value, additional = .schema value → projector.SameRef projector' value) :
    (projector'.additionalRefs additional).toOption
      = (projector.additionalRefs additional).toOption := by
  cases additional with
  | schema value =>
    have hsame := hvalue value rfl
    unfold SameRef at hsame
    simp only [additionalRefs, toOption_bind, hsame]
  | _ => rfl

/-! ### Shapes of parts -/

/-- The shape of the schema is the same to both projectors, wherever it stands. -/
def SameShape (projector projector' : Projector) (schema : Schema) : Prop :=
  ∀ visiting top, (projector'.expand visiting top schema).toOption
    = (projector.expand visiting top schema).toOption

theorem toOption_shapes (hitems : ∀ item ∈ items, projector.SameShape projector' item) :
    (projector'.shapes visiting items).toOption = (projector.shapes visiting items).toOption := by
  induction items with
  | nil => rfl
  | cons item rest ih =>
    obtain ⟨hitem, hrest⟩ := List.forall_mem_cons.mp hitems
    simp only [shapes, toOption_bind, hitem visiting false, ih hrest]

namespace Agrees

theorem refl (projector : Projector) : projector.Agrees projector := ⟨rfl, rfl, fun _ => rfl⟩

section

variable (h : projector.Agrees projector')

include h

/-! ### Texts -/

theorem template (kind : TemplateKind) : projector'.template kind = projector.template kind := by
  simp only [Projector.template, h.profile]

theorem filled (kind : TemplateKind) (values : List (String × String)) :
    projector'.filled kind values = projector.filled kind values := by
  simp only [Projector.filled, h.template]

theorem primitiveName (p : Primitive) : projector'.primitiveName p = projector.primitiveName p := by
  simp only [Projector.primitiveName, h.profile, h.options]

theorem literal (value : Json) : projector'.literal value = projector.literal value := by
  simp only [Projector.literal, h.filled]

theorem arrayOf (element : String) : projector'.arrayOf element = projector.arrayOf element := by
  simp only [Projector.arrayOf, h.filled]

theorem unionOfTypes (branches : List String) :
    projector'.unionOfTypes branches = projector.unionOfTypes branches := by
  simp only [Projector.unionOfTypes, h.filled, h.template]

theorem tupleOf (elements : List String) :
    projector'.tupleOf elements = projector.tupleOf elements := by
  simp only [Projector.tupleOf, h.filled, h.template]

theorem objectOf (fields : List String) : projector'.objectOf fields = projector.objectOf fields := by
  simp only [Projector.objectOf, h.filled, h.template]

theorem fieldOf (required : Bool) (name typeRef : String) :
    projector'.fieldOf required name typeRef = projector.fieldOf required name typeRef := by
  simp only [Projector.fieldOf, h.filled]

theorem valueType (types : List String) :
    projector'.valueType types = projector.valueType types := by
  unfold Projector.valueType
  split
  · exact h.template _
  · rfl
  · exact h.unionOfTypes _

theorem keyType (names : Option (List String)) :
    projector'.keyType names = projector.keyType names := by
  unfold Projector.keyType
  split
  · simp only [h.unionOfTypes, h.literal]
  · exact h.primitiveName _

theorem toOption_tupleForm (items : List Schema) :
    (projector'.tupleForm items).toOption = (projector.tupleForm items).toOption := by
  unfold Projector.tupleForm
  rw [h.options, h.profile]
  split
  · rfl
  · split
    · rfl
    · split <;> rfl

theorem nameRef? (title : Option String) (kind : Kind) :
    projector'.nameRef? title kind = projector.nameRef? title kind := by
  have hqualify : projector'.qualify = projector.qualify := funext h.qualify
  unfold Projector.nameRef?
  rw [hqualify]

/-! ### Type references -/

theorem toOption_headRef (hitems : ∀ item ∈ items, projector.SameRef projector' item) :
    (projector'.headRef items).toOption = (projector.headRef items).toOption := by
  cases items with
  | nil => simp only [headRef, h.template]
  | cons item rest => exact hitems item List.mem_cons_self

theorem toOption_payloadRef (hitems : ∀ item ∈ items, projector.SameRef projector' item) :
    (projector'.payloadRef items).toOption = (projector.payloadRef items).toOption := by
  induction items with
  | nil => simp only [payloadRef, h.template]
  | cons item rest ih =>
    obtain ⟨hitem, hrest⟩ := List.forall_mem_cons.mp hitems
    rw [payloadRef, payloadRef]
    split
    · exact ih hrest
    · exact hitem

theorem toOption_fieldRefs (hfields : ∀ entry ∈ fields, projector.SameRef projector' entry.2)
    (required : List String) :
    (projector'.fieldRefs required fields).toOption
      = (projector.fieldRefs required fields).toOption := by
  induction fields with
  | nil => rfl
  | cons entry rest ih =>
    obtain ⟨name, schema⟩ := entry
    obtain ⟨hschema, hrest⟩ := List.forall_mem_cons.mp hfields
    unfold SameRef at hschema
    simp only [fieldRefs, toOption_bind, hschema, ih hrest, h.fieldOf]

theorem toOption_objectRef {object : ObjectSchema}
    (hparts : ∀ part ∈ object.parts, projector.SameRef projector' part) :
    (projector'.objectRef object).toOption = (projector.objectRef object).toOption := by
  obtain ⟨hproperties, hadditional, hpatterns⟩ := ObjectSchema.forall_parts_iff.mp hparts
  obtain ⟨properties, required, additional, patterns, names⟩ := object
  rw [objectRef, objectRef]
  split
  · simp only [toOption_bind, toOption_additionalRefs hadditional,
      toOption_patternRefs hpatterns, h.filled, h.keyType, h.valueType]
  · simp only [toOption_bind, h.toOption_fieldRefs hproperties, h.objectOf]

theorem toOption_kindRef (hparts : ∀ part ∈ kind.parts, projector.SameRef projector' part) :
    (projector'.kindRef kind).toOption = (projector.kindRef kind).toOption := by
  cases kind with
  | ref reference => simp only [kindRef, h.qualify]
  | const value => simp only [kindRef, h.literal]
  | enum type values =>
    have hliteral : projector'.literal = projector.literal := funext h.literal
    cases type <;>
      simp only [kindRef, h.options, hliteral, h.unionOfTypes, h.template, h.primitiveName]
  | object object => exact h.toOption_objectRef hparts
  | listOf item =>
    have hitem := hparts item (List.mem_singleton_self _)
    unfold SameRef at hitem
    simp only [kindRef, toOption_bind, hitem, h.arrayOf]
  | tuple items =>
    have hhead : (projector'.headRef items).toOption = _ := h.toOption_headRef hparts
    have hrefs : (projector'.typeRefs items).toOption = _ := toOption_typeRefs hparts
    simp only [kindRef, toOption_bind, h.toOption_tupleForm]
    refine congrArg _ (funext fun form => ?_)
    cases form with
    | sequence => simp only [toOption_bind, hhead, h.arrayOf]
    | tuple => simp only [toOption_bind, hrefs, h.tupleOf]
    | degraded => simp only [h.arrayOf, h.template]
  | anyOf branches =>
    have hrefs : (projector'.typeRefs branches).toOption = _ := toOption_typeRefs hparts
    rw [kindRef, kindRef, h.options]
    split
    · exact h.toOption_payloadRef hparts
    · simp only [toOption_bind, hrefs, h.unionOfTypes]
  | list => simp only [kindRef, h.arrayOf, h.template]
  | primitive type => simp only [kindRef, h.primitiveName]
  | allOf _ | empty | never => simp only [kindRef, h.template]

/-- **Projectors that agree refer to a schema in the same way**, by induction on its parts. -/
theorem sameRef (schema : Schema) : projector.SameRef projector' schema := by
  induction schema using Schema.induction_parts with
  | h schema ih =>
    obtain ⟨title, description, kind, extra⟩ := schema
    unfold SameRef
    rw [typeRef, typeRef, h.nameRef?]
    split
    · rfl
    · exact h.toOption_kindRef ih

/-! ### Shapes -/

theorem anyShape : projector'.anyShape = projector.anyShape := by
  simp only [Projector.anyShape, h.template]

theorem voidShape : projector'.voidShape = projector.voidShape := by
  simp only [Projector.voidShape, h.template]

theorem referenceShape (title : Option String) (reference : String) :
    projector'.referenceShape title reference = projector.referenceShape title reference := by
  cases title <;> simp only [Projector.referenceShape, h.qualify]

theorem constantShape (value : Json) :
    projector'.constantShape value = projector.constantShape value := by
  simp only [Projector.constantShape, h.literal]

theorem enumShape (type : Option Primitive) (values : List Json) :
    projector'.enumShape type values = projector.enumShape type values := by
  have hliteral : projector'.literal = projector.literal := funext h.literal
  simp only [Projector.enumShape, hliteral, h.unionOfTypes]

theorem toOption_headShape (hitems : ∀ item ∈ items, projector.SameShape projector' item) :
    (projector'.headShape visiting items).toOption
      = (projector.headShape visiting items).toOption := by
  cases items with
  | nil => simp only [headShape, h.anyShape]
  | cons item rest => exact hitems item List.mem_cons_self visiting false

theorem toOption_payloadShape (hitems : ∀ item ∈ items, projector.SameShape projector' item) :
    (projector'.payloadShape visiting items).toOption
      = (projector.payloadShape visiting items).toOption := by
  induction items with
  | nil => simp only [payloadShape, h.voidShape]
  | cons item rest ih =>
    obtain ⟨hitem, hrest⟩ := List.forall_mem_cons.mp hitems
    rw [payloadShape, payloadShape]
    split
    · exact ih hrest
    · exact hitem visiting false

theorem toOption_patternShape (hfields : ∀ entry ∈ fields, projector.SameShape projector' entry.2) :
    (projector'.patternShape visiting fields).toOption
      = (projector.patternShape visiting fields).toOption := by
  cases fields with
  | nil => simp only [patternShape, h.anyShape]
  | cons entry rest => exact hfields entry List.mem_cons_self visiting false

theorem toOption_propertyShapes (required : List String)
    (hfields : ∀ entry ∈ fields, projector.SameShape projector' entry.2) :
    (projector'.propertyShapes visiting required fields).toOption
      = (projector.propertyShapes visiting required fields).toOption := by
  induction fields with
  | nil => rfl
  | cons entry rest ih =>
    obtain ⟨name, schema⟩ := entry
    obtain ⟨hschema, hrest⟩ := List.forall_mem_cons.mp hfields
    have href := h.sameRef schema
    unfold SameRef at href
    simp only [propertyShapes, toOption_bind, href, hschema visiting false, ih hrest]

theorem toOption_objectShape {object : ObjectSchema}
    (hparts : ∀ part ∈ object.parts, projector.SameShape projector' part) :
    (projector'.objectShape visiting object).toOption
      = (projector.objectShape visiting object).toOption := by
  obtain ⟨hproperties, hadditional, hpatterns⟩ := ObjectSchema.forall_parts_iff.mp hparts
  obtain ⟨properties, required, additional, patterns, names⟩ := object
  have hfirst : (projector'.additionalRefs additional).toOption = _ :=
    toOption_additionalRefs fun value _ => h.sameRef value
  have hothers : (projector'.patternRefs additional.schema?.toList patterns).toOption = _ :=
    toOption_patternRefs (fun entry _ => h.sameRef entry.2) _
  have hdeclared : (projector'.propertyShapes visiting required properties).toOption = _ :=
    h.toOption_propertyShapes required hproperties
  rw [objectShape, objectShape, toOption_bind, toOption_bind, hdeclared]
  refine congrArg _ (funext fun declared => ?_)
  rw [toOption_bind, toOption_bind, hfirst]
  refine congrArg _ (funext fun first => ?_)
  rw [toOption_bind, toOption_bind, hothers]
  refine congrArg _ (funext fun others => ?_)
  split
  · rfl
  · rw [h.valueType, h.anyShape]
  · -- One type is left, of the undeclared properties or of a pattern.
    split
    · rw [toOption_bind, toOption_bind, hadditional _ rfl visiting false]
    · rw [toOption_bind, toOption_bind, h.toOption_patternShape hpatterns]
  · rw [h.valueType]

theorem toOption_kindShape (hparts : ∀ part ∈ kind.parts, projector.SameShape projector' part) :
    (projector'.kindShape visiting kind).toOption = (projector.kindShape visiting kind).toOption := by
  cases kind with
  | ref reference => simp only [kindShape, h.referenceShape]
  | const value => simp only [kindShape, h.constantShape]
  | enum type values => simp only [kindShape, h.enumShape]
  | object object => exact h.toOption_objectShape hparts
  | listOf item =>
    have href := h.sameRef item
    unfold SameRef at href
    simp only [kindShape, toOption_bind, hparts item (List.mem_singleton_self _) visiting false,
      href, h.arrayOf]
  | tuple items =>
    have hhead : (projector'.headShape visiting items).toOption = _ := h.toOption_headShape hparts
    have helements : (projector'.shapes visiting items).toOption = _ := toOption_shapes hparts
    simp only [kindShape, toOption_bind, h.toOption_tupleForm]
    refine congrArg _ (funext fun form => ?_)
    cases form with
    | sequence =>
      simp only [toOption_bind, hhead, h.toOption_headRef fun item _ => h.sameRef item, h.arrayOf]
    | tuple =>
      simp only [toOption_bind, helements, toOption_typeRefs fun item _ => h.sameRef item,
        h.tupleOf]
    | degraded => simp only [h.anyShape, h.arrayOf, h.template]
  | anyOf branches =>
    rw [kindShape, kindShape, h.options]
    split
    · exact h.toOption_payloadShape hparts
    · simp only [toOption_bind, toOption_typeRefs fun item _ => h.sameRef item, h.unionOfTypes]
  | list => simp only [kindShape, h.anyShape, h.arrayOf, h.template]
  | primitive type => simp only [kindShape, h.primitiveName]
  | allOf _ | empty => simp only [kindShape, h.voidShape]
  | never => simp only [kindShape, h.template]

/-- **Projectors that agree give a schema the same shape**, by induction on its parts. -/
theorem sameShape (schema : Schema) : projector.SameShape projector' schema := by
  induction schema using Schema.induction_parts with
  | h schema ih =>
    obtain ⟨title, description, kind, extra⟩ := schema
    have hnamed : projector'.isNamed = projector.isNamed := by
      unfold Projector.isNamed
      rw [h.options]
    intro visiting top
    unfold expand
    rw [hnamed]
    split
    · rw [h.referenceShape]
    · rw [h.constantShape]
    · next title _ _ =>
      split
      · rw [h.qualify]
      · exact h.toOption_kindShape ih
    · exact h.toOption_kindShape ih

/-! ### Declarations and methods -/

theorem atPath (path path' : String) :
    (projector.atPath path).Agrees (projector'.atPath path') where
  profile := h.profile
  options := h.options
  qualify := h.qualify

theorem inEventContext (event : Bool) :
    (projector.inEventContext event).Agrees (projector'.inEventContext event) where
  profile := h.profile
  options := congrArg (fun options => { options with eventContext := event }) h.options
  qualify := fun name => by
    have hqualify := h.qualify name
    unfold Projector.qualify at hqualify ⊢
    exact hqualify

/-- **Projectors that agree declare a schema the same**, if they can. -/
theorem toOption_declare (named : NamedSchema) :
    (projector'.declare named).toOption = (projector.declare named).toOption := by
  have href := h.sameRef named.schema
  unfold SameRef at href
  simp only [declare, shape, toOption_bind, href, h.sameShape named.schema [] true]

theorem toOption_param (descriptor : Descriptor) (required : Bool) (schema : Schema) :
    (projector'.param descriptor required schema).toOption
      = (projector.param descriptor required schema).toOption := by
  have href := h.sameRef schema
  unfold SameRef at href
  simp only [param, useShape, toOption_bind, href, h.sameShape schema [] false]

end

theorem toOption_params {placed placed' : PlacedMethod} (h : projector.Agrees projector')
    (index : Nat) (params : List (Descriptor × Schema)) :
    (projector'.params placed' index params).toOption
      = (projector.params placed index params).toOption := by
  induction params generalizing index with
  | nil => rfl
  | cons param rest ih =>
    obtain ⟨descriptor, schema⟩ := param
    have hparam := (h.atPath (placed.paramPointer index) (placed'.paramPointer index)).toOption_param
      descriptor descriptor.required schema
    simp only [Projector.params, toOption_bind, hparam, ih]

/-- **Projectors that agree project a method the same**, if they can, wherever it stands. -/
theorem toOption_method (h : projector.Agrees projector') {resolved resolved' : ResolvedMethod}
    (hmethod : resolved'.placed.method = resolved.placed.method)
    (hparams : resolved'.params = resolved.params) (hresult : resolved'.result = resolved.result) :
    (projector'.method resolved').toOption = (projector.method resolved).toOption := by
  rw [method, method, hmethod, hparams, hresult, h.options, toOption_bind, toOption_bind,
    (h.inEventContext false).toOption_params]
  refine congrArg _ (funext fun params => ?_)
  rw [toOption_bind, toOption_bind]
  refine congrArg (Option.bind · _) ?_
  cases resolved.result with
  | none => rfl
  | some result =>
    have hresults := (h.inEventContext
      (resolved.placed.method.isEvent || projector.options.eventContext)).atPath
        resolved.placed.resultPointer resolved'.placed.resultPointer
    have hparam := hresults.toOption_param result.1 true
      (if resolved.placed.method.isEvent then result.2.eventPayload else result.2)
    rw [Option.mapM_some, Option.mapM_some]
    exact (toOption_map _ some).trans ((congrArg (Option.map some) hparam).trans
      (toOption_map _ some).symm)

end Agrees

end Projector

end RpcSchema
