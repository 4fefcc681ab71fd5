import RpcSchema.Projection
import RpcSchema.Proofs.Outcome
import RpcSchema.Proofs.Schema.Parts

/-!
# Shapes and type references at uses

Where a schema is used it is rendered twice, as a type reference and as a shape, and most shapes
carry a type reference of their own.  When named schemas are not inlined, a schema that has a shape
has a type reference, and the two type references are the same, but for two sorts of schemas.

A reference with a title goes by the title in its shape, and by what it refers to in its type
reference.  An anonymous enumeration of other values than strings is spelled out in its shape, and
in its type reference only if the options ask for it.  In event context a union is rendered as its
payload is, so the payload of a union may be of these sorts, too.

## Main definitions

* `Projector.Diverges` — the schemas with two type references, and which these are.
* `Projector.UseAgrees` — there is one type reference.

## Main results

* `Projector.typeRef_of_useShape` — what has a shape has a type reference, and that of the shape is
  the same or diverges.
* `Projector.not_useAgrees_titledReference` — the two sorts do diverge.
-/

namespace RpcSchema

namespace Projector

variable {projector : Projector} {schema : Schema} {kind : Kind} {shape : Shape}
  {items : List Schema} {fields : Fields Schema} {visiting : List String}

/-- `Diverges projector schema own ref` says that the shape of `schema` at a use carries the type
reference `own`, while the schema has the type reference `ref`. -/
inductive Diverges (projector : Projector) : Schema → String → String → Prop
  /-- The shape of a reference goes by the title. -/
  | reference {title reference : String} {description : Option String} {extra : Fields Json} :
      Diverges projector ⟨some title, description, .ref reference, extra⟩
        (projector.qualify title) (projector.qualify (Reference.name reference))
  /-- The shape of an enumeration spells it out, whether or not this is asked for. -/
  | enumeration {type : Option Primitive} {values : List Json} {description : Option String}
      {extra : Fields Json} (hkept : projector.options.expandEnums = false)
      (hother : Kind.isStringEnum (.enum type values) = false) :
      Diverges projector ⟨none, description, .enum type values, extra⟩
        (projector.unionOfTypes (values.map projector.literal))
        ((type.map projector.primitiveName).getD (projector.template .any))
  /-- A union is rendered as its payload. -/
  | payload {branches : List Schema} {branch : Schema} {description : Option String}
      {extra : Fields Json} {own ref : String} (hevent : projector.options.eventContext = true)
      (hbranch : Schema.payloadBranch? branches = some branch)
      (h : Diverges projector branch own ref) :
      Diverges projector ⟨none, description, .anyOf branches, extra⟩ own ref

/-- If the schema has a shape at a use, it has a type reference, and the shape carries that one if
it carries any. -/
def UseAgrees (projector : Projector) (schema : Schema) : Prop :=
  ∀ shape, projector.useShape schema = .ok shape →
    ∃ ref, projector.typeRef schema = .ok ref ∧ ∀ own, shape.typeRef? = some own → own = ref

/-! ### Objects -/

/-- Fields have type references when properties have shapes. -/
theorem exists_fieldRefs {required : List String} {properties : List Property}
    (h : projector.propertyShapes visiting required fields = .ok properties) :
    ∃ refs, projector.fieldRefs required fields = .ok refs := by
  induction fields generalizing properties with
  | nil => exact ⟨[], rfl⟩
  | cons entry rest ih =>
    obtain ⟨name, schema⟩ := entry
    rw [propertyShapes] at h
    obtain ⟨ref, href, h⟩ := bind_eq_ok_iff.mp h
    obtain ⟨shape, -, h⟩ := bind_eq_ok_iff.mp h
    obtain ⟨others, hothers, -⟩ := bind_eq_ok_iff.mp h
    obtain ⟨refs, hrefs⟩ := ih hothers
    refine ⟨projector.fieldOf (required.contains name) name ref :: refs, ?_⟩
    rw [fieldRefs, href]
    exact bind_eq_ok_iff.mpr ⟨ref, rfl, bind_eq_ok_iff.mpr ⟨refs, hrefs, rfl⟩⟩

/-- An object has a type reference when it has a shape: the same parts are asked for theirs. -/
theorem exists_objectRef {object : ObjectSchema}
    (h : projector.objectShape visiting object = .ok shape) :
    (∃ ref, projector.objectRef object = .ok ref) ∧ shape.typeRef? = none := by
  obtain ⟨properties, required, additional, patterns, names⟩ := object
  rw [objectShape] at h
  obtain ⟨declared, hdeclared, h⟩ := bind_eq_ok_iff.mp h
  obtain ⟨first, hfirst, h⟩ := bind_eq_ok_iff.mp h
  obtain ⟨others, hothers, h⟩ := bind_eq_ok_iff.mp h
  obtain ⟨refs, hrefs⟩ := exists_fieldRefs hdeclared
  refine ⟨?_, ?_⟩
  · rw [objectRef]
    split
    · exact ⟨_, bind_eq_ok_iff.mpr ⟨first, hfirst, bind_eq_ok_iff.mpr ⟨others, hothers, rfl⟩⟩⟩
    · exact ⟨_, bind_eq_ok_iff.mpr ⟨refs, hrefs, rfl⟩⟩
  · split at h
    · obtain rfl := Except.ok.inj h
      rfl
    · obtain rfl := Except.ok.inj h
      rfl
    · dsimp only at h
      split at h <;>
      · obtain ⟨value, -, h⟩ := bind_eq_ok_iff.mp h
        obtain rfl := Except.ok.inj h
        rfl
    · obtain rfl := Except.ok.inj h
      rfl

/-! ### One level -/

/-- At a use the schema has a type reference when it has a shape, and that of the shape is the same
or diverges. -/
def Accords (projector : Projector) (schema : Schema) : Prop :=
  ∀ visiting shape, projector.expand visiting false schema = .ok shape →
    ∃ ref, projector.typeRef schema = .ok ref ∧
      ∀ own, shape.typeRef? = some own → own = ref ∨ projector.Diverges schema own ref

/-- A shape that is made with the type reference carries no other. -/
private theorem eq_of_carried {ref : String} {diverges : String → Prop}
    (h : shape.typeRef? = some ref) : ∀ own, shape.typeRef? = some own → own = ref ∨ diverges own :=
  fun _ hown => .inl (Option.some.inj (hown.symm.trans h))

/-- The payload among branches, if each of them accords. -/
theorem payloadRef_of_payloadShape (h : ∀ item ∈ items, projector.Accords item)
    (hshape : projector.payloadShape visiting items = .ok shape) :
    ∃ ref, projector.payloadRef items = .ok ref ∧
      ∀ own, shape.typeRef? = some own → own = ref ∨
        ∃ branch, Schema.payloadBranch? items = some branch ∧
          projector.Diverges branch own ref := by
  induction items with
  | nil =>
    obtain rfl := Except.ok.inj hshape
    exact ⟨_, rfl, eq_of_carried rfl⟩
  | cons item rest ih =>
    obtain ⟨hitem, hrest⟩ := List.forall_mem_cons.mp h
    rw [payloadShape] at hshape
    rw [payloadRef]
    cases hacknowledges : item.isAcknowledgment with
    | true =>
      rw [hacknowledges] at hshape
      rw [Schema.payloadBranch?, List.find?_cons_of_neg (by simp [hacknowledges])]
      exact ih hrest hshape
    | false =>
      rw [hacknowledges] at hshape
      rw [Schema.payloadBranch?, List.find?_cons_of_pos (by simp [hacknowledges])]
      obtain ⟨ref, href, hown⟩ := hitem visiting shape hshape
      exact ⟨ref, href, fun own h => (hown own h).imp_right fun hdiverges =>
        ⟨item, rfl, hdiverges⟩⟩

/-- **An untitled schema**, if its parts accord: case by case the shape is made with the type
reference. -/
theorem kindRef_of_kindShape (hparts : ∀ part ∈ kind.parts, projector.Accords part)
    (description : Option String) (extra : Fields Json)
    (hshape : projector.kindShape visiting kind = .ok shape) :
    ∃ ref, projector.kindRef kind = .ok ref ∧
      ∀ own, shape.typeRef? = some own →
        own = ref ∨ projector.Diverges ⟨none, description, kind, extra⟩ own ref := by
  -- Shape and reference are made in the same steps, so the one succeeds where the other does.
  cases kind with
  | enum type values =>
    obtain rfl := Except.ok.inj hshape
    simp only [kindRef, enumShape]
    cases hexpands : projector.options.expandEnums with
    | true =>
      refine ⟨_, rfl, fun own hown => ?_⟩
      split at hown
      · cases hown
      · exact .inl (Option.some.inj hown).symm
    | false =>
      refine ⟨(type.map projector.primitiveName).getD (projector.template .any), ?_,
        fun own hown => ?_⟩
      · cases type <;> rfl
      · split at hown
        · cases hown
        · next hother =>
          obtain rfl := Option.some.inj hown
          exact .inr (.enumeration hexpands (by simpa using hother))
  | object object =>
    obtain ⟨⟨ref, href⟩, hnone⟩ := exists_objectRef hshape
    exact ⟨ref, href, fun own hown => by rw [hnone] at hown; cases hown⟩
  | listOf item =>
    rw [kindShape] at hshape
    obtain ⟨element, -, hshape⟩ := bind_eq_ok_iff.mp hshape
    obtain ⟨ref, href, hshape⟩ := bind_eq_ok_iff.mp hshape
    obtain rfl := Except.ok.inj hshape
    exact ⟨_, bind_eq_ok_iff.mpr ⟨ref, href, rfl⟩, eq_of_carried rfl⟩
  | tuple items =>
    rw [kindShape] at hshape
    obtain ⟨form, hform, hshape⟩ := bind_eq_ok_iff.mp hshape
    rw [kindRef, hform]
    cases form with
    | sequence =>
      obtain ⟨element, -, hshape⟩ := bind_eq_ok_iff.mp hshape
      obtain ⟨ref, href, hshape⟩ := bind_eq_ok_iff.mp hshape
      obtain rfl := Except.ok.inj hshape
      exact ⟨_, bind_eq_ok_iff.mpr ⟨_, rfl, bind_eq_ok_iff.mpr ⟨ref, href, rfl⟩⟩,
        eq_of_carried rfl⟩
    | tuple =>
      obtain ⟨elements, -, hshape⟩ := bind_eq_ok_iff.mp hshape
      obtain ⟨refs, hrefs, hshape⟩ := bind_eq_ok_iff.mp hshape
      obtain rfl := Except.ok.inj hshape
      exact ⟨_, bind_eq_ok_iff.mpr ⟨_, rfl, bind_eq_ok_iff.mpr ⟨refs, hrefs, rfl⟩⟩,
        eq_of_carried rfl⟩
    | degraded =>
      obtain rfl := Except.ok.inj hshape
      exact ⟨_, rfl, eq_of_carried rfl⟩
  | anyOf branches =>
    rw [kindShape] at hshape
    rw [kindRef]
    cases hevent : projector.options.eventContext with
    | true =>
      rw [hevent, if_pos rfl] at hshape
      obtain ⟨ref, href, hown⟩ := payloadRef_of_payloadShape hparts hshape
      exact ⟨ref, href, fun own h => (hown own h).imp_right
        fun ⟨branch, hbranch, hdiverges⟩ => .payload hevent hbranch hdiverges⟩
    | false =>
      rw [hevent, if_neg Bool.false_ne_true] at hshape
      obtain ⟨refs, hrefs, hshape⟩ := bind_eq_ok_iff.mp hshape
      obtain rfl := Except.ok.inj hshape
      exact ⟨_, bind_eq_ok_iff.mpr ⟨refs, hrefs, rfl⟩,
        eq_of_carried rfl⟩
  | _ =>
    obtain rfl := Except.ok.inj hshape
    exact ⟨_, rfl, eq_of_carried rfl⟩

/-! ### All levels -/

/-- A schema without a title has the type reference of its shape. -/
theorem typeRef_of_untitled (description : Option String) (kind : Kind) (extra : Fields Json) :
    projector.typeRef ⟨none, description, kind, extra⟩ = projector.kindRef kind := by
  rw [typeRef]
  cases kind <;> rfl

/-- **At a use every schema accords**, when named schemas are not inlined.  By induction on the
schema: of its parts only the payload of an event is rendered in its place. -/
theorem accords (hkept : projector.options.inlineNamed = false) (schema : Schema) :
    projector.Accords schema := by
  induction schema using Schema.induction_parts with
  | h schema ih =>
    obtain ⟨title, description, kind, extra⟩ := schema
    intro visiting shape hshape
    cases title with
    | none =>
      rw [typeRef_of_untitled]
      have hkind : projector.kindShape visiting kind = .ok shape := by
        cases kind <;> exact hshape
      exact kindRef_of_kindShape ih description extra hkind
    | some title =>
      cases kind with
      | ref reference =>
        obtain rfl := Except.ok.inj hshape
        refine ⟨_, rfl, fun own hown => ?_⟩
        obtain rfl := Option.some.inj hown
        exact .inr .reference
      | const value =>
        obtain rfl := Except.ok.inj hshape
        exact ⟨_, rfl, eq_of_carried rfl⟩
      | _ =>
        -- The schema is named, and both go by its title.
        simp only [expand, isNamed, hkept, Bool.not_false, Bool.true_or, Bool.and_self,
          ↓reduceIte] at hshape
        obtain rfl := Except.ok.inj hshape
        exact ⟨_, rfl, eq_of_carried rfl⟩

/-- **Type references and shapes at uses.**  When named schemas are not inlined, a schema that has a
shape at a use has a type reference; and the type reference that the shape carries, if it carries
one, is the same, unless the schema is a reference with a title, an anonymous enumeration of other
values than strings that is not to be spelled out, or a union with such a payload in event context,
and then it is the one that `Diverges` says. -/
theorem typeRef_of_useShape (hkept : projector.options.inlineNamed = false)
    (hshape : projector.useShape schema = .ok shape) :
    ∃ ref, projector.typeRef schema = .ok ref ∧
      ∀ own, shape.typeRef? = some own → own = ref ∨ projector.Diverges schema own ref :=
  accords hkept schema [] shape hshape

/-- A document with a schema that refers to itself under another title. -/
def familyDocument : Document := ⟨none, "Family", .object [("components", .object [("schemas",
  .object [("Node", .object [("properties", .object [("parent", .object
    [("title", .string "Parent"), ("$ref", .string "#/components/schemas/Node")])])])])])]⟩

/-- Render in event context, with a proxy for integers. -/
def tickProjector : Projector := ⟨.typescript,
  { ProjectionOptions.standard.withProxy .integer "Tick" with eventContext := true }, .empty,
  familyDocument, "#"⟩

/-- An acknowledgment or an array of integers. -/
def ticksResult : Schema := ⟨none, none, .anyOf [
  ⟨some acknowledgmentName, none, .primitive .boolean, []⟩,
  ⟨none, none, .listOf ⟨none, none, .primitive .integer, []⟩, []⟩], []⟩

/-- In event context the result is its payload, an array of what stands for integers. -/
theorem typeRef_of_useShape_ticksResult :
    tickProjector.options.inlineNamed = false ∧
      tickProjector.useShape ticksResult = .ok (.array (.primitive "Tick") "Tick[]") ∧
      tickProjector.typeRef ticksResult = .ok "Tick[]" := by
  have hshape : tickProjector.useShape ticksResult = .ok (.array (.primitive "Tick") "Tick[]") :=
    rfl
  obtain ⟨ref, href, hown⟩ := typeRef_of_useShape rfl hshape
  rcases hown "Tick[]" rfl with rfl | hdiverges
  · exact ⟨rfl, hshape, href⟩
  · -- The payload is an array, and arrays do not diverge.
    obtain _ | _ | ⟨-, hbranch, hpayload⟩ := hdiverges
    obtain rfl := Option.some.inj hbranch
    cases hpayload

/-- **The two sorts diverge.**  The parent of a node goes by "Parent" in its shape and by "Node" in
its type reference; two numbers are spelled out in their shape only. -/
theorem not_useAgrees_titledReference :
    ¬ (⟨.typescript, .standard, .empty, familyDocument, "#"⟩ : Projector).UseAgrees
        ⟨some "Parent", none, .ref "#/components/schemas/Node", []⟩ ∧
      ¬ (⟨.typescript, { ProjectionOptions.standard with expandEnums := false }, .empty,
        familyDocument, "#"⟩ : Projector).UseAgrees
        ⟨none, none, .enum (some .integer) [.number (.int 1), .number (.int 2)], []⟩ := by
  refine ⟨fun hagrees => ?_, fun hagrees => ?_⟩
  · obtain ⟨ref, href, hown⟩ := hagrees (.reference "Parent" "Parent") rfl
    have hnode : ref = "Node" := (Except.ok.inj href).symm
    exact absurd ((hown "Parent" rfl).trans hnode) (by decide)
  · obtain ⟨ref, href, hown⟩ := hagrees (.union ["1", "2"] "1 | 2") rfl
    have hnumber : ref = "number" := (Except.ok.inj href).symm
    exact absurd ((hown "1 | 2" rfl).trans hnumber) (by decide)

end Projector

end RpcSchema
