import RpcSchema.Declaration.Dependency
import RpcSchema.Projection
import RpcSchema.Proofs.Outcome
import RpcSchema.Proofs.Schema.Names

/-!
# Names in shapes

A shape mentions the schemas that it refers to.  Projection takes these names from the schema: a
schema that is named at its use is mentioned by its title, and a reference left in place by the
name of what it refers to.  Where a schema is spelled out, what it holds is projected in turn.

So the names in a shape are bounded by any set that takes in the names that schemas go by, from
one schema to those within it.  Two such sets matter: all names at any depth, and the names down
to the next titles, which are the dependencies of a schema, when named schemas are not inlined.

## Main definitions

* `Shape.names` — the names that a shape mentions, at any depth.
* `Projector.Bounds` — a property of schemas that bounds the names in their shapes.

## Main results

* `Projector.Bounds.usedWithin`, `Projector.Bounds.within_shape` — the names in the shape of a
  schema, at a use and at its declaration.
* `Projector.bounds_usesOnly`, `Projector.names_shape_subset` — the two bounds.
-/

namespace RpcSchema

/-! ### The names that a shape mentions -/

mutual

/-- The names of the schemas that a shape refers to, at any depth. -/
def Shape.names : Shape → List String
  | .forward name _ => [name]
  | .reference name _ => [name]
  | .object properties index => Property.namesOf properties ++ IndexSignature.namesOf index
  | .array element _ => Shape.names element
  | .tuple elements _ => Shape.namesOf elements
  | _ => []

/-- The names in the values of properties whose names are not fixed. -/
def IndexSignature.namesOf : Option IndexSignature → List String
  | none => []
  | some ⟨_, _, shape⟩ => Shape.names shape

/-- The names in properties. -/
def Property.namesOf : List Property → List String
  | [] => []
  | ⟨_, _, _, _, shape⟩ :: rest => Shape.names shape ++ Property.namesOf rest

/-- The names in shapes. -/
def Shape.namesOf : List Shape → List String
  | [] => []
  | shape :: rest => Shape.names shape ++ Shape.namesOf rest

end

/-- The shape mentions names of a set only. -/
def Shape.Within (names : Set String) (shape : Shape) : Prop := ∀ name ∈ shape.names, name ∈ names

namespace Projector

variable {projector : Projector} {names : Set String} {p : Schema → Prop} {visiting : List String}
  {schema : Schema} {kind : Kind} {shape : Shape} {items : List Schema} {fields : Fields Schema}

/-! ### Shapes of parts -/

section Parts

/-- Wherever the schema is used, its shape mentions names of a set only. -/
def UsedWithin (projector : Projector) (names : Set String) (schema : Schema) : Prop :=
  ∀ (visiting : List String) (shape : Shape),
    projector.expand visiting false schema = .ok shape → shape.Within names

theorem within_headShape (h : ∀ item ∈ items, projector.UsedWithin names item)
    (hshape : projector.headShape visiting items = .ok shape) : shape.Within names := by
  cases items with
  | nil =>
    obtain rfl := Except.ok.inj hshape
    exact List.forall_mem_nil _
  | cons item rest => exact h item List.mem_cons_self visiting shape hshape

theorem within_payloadShape (h : ∀ item ∈ items, projector.UsedWithin names item)
    (hshape : projector.payloadShape visiting items = .ok shape) : shape.Within names := by
  induction items with
  | nil =>
    obtain rfl := Except.ok.inj hshape
    exact List.forall_mem_nil _
  | cons item rest ih =>
    obtain ⟨hitem, hrest⟩ := List.forall_mem_cons.mp h
    rw [payloadShape] at hshape
    split at hshape
    · exact ih hrest hshape
    · exact hitem visiting shape hshape

theorem within_shapes {shapes : List Shape} (h : ∀ item ∈ items, projector.UsedWithin names item)
    (hshapes : projector.shapes visiting items = .ok shapes) :
    ∀ name ∈ Shape.namesOf shapes, name ∈ names := by
  induction items generalizing shapes with
  | nil =>
    obtain rfl := Except.ok.inj hshapes
    exact List.forall_mem_nil _
  | cons item rest ih =>
    obtain ⟨hitem, hrest⟩ := List.forall_mem_cons.mp h
    rw [Projector.shapes] at hshapes
    obtain ⟨shape, hshape, hshapes⟩ := bind_eq_ok_iff.mp hshapes
    obtain ⟨others, hothers, hshapes⟩ := bind_eq_ok_iff.mp hshapes
    obtain rfl := Except.ok.inj hshapes
    exact List.forall_mem_append.mpr ⟨hitem visiting shape hshape, ih hrest hothers⟩

theorem within_propertyShapes {required : List String} {properties : List Property}
    (h : ∀ entry ∈ fields, projector.UsedWithin names entry.2)
    (hproperties : projector.propertyShapes visiting required fields = .ok properties) :
    ∀ name ∈ Property.namesOf properties, name ∈ names := by
  induction fields generalizing properties with
  | nil =>
    obtain rfl := Except.ok.inj hproperties
    exact List.forall_mem_nil _
  | cons entry rest ih =>
    obtain ⟨name, schema⟩ := entry
    obtain ⟨hschema, hrest⟩ := List.forall_mem_cons.mp h
    rw [propertyShapes] at hproperties
    obtain ⟨ref, -, hproperties⟩ := bind_eq_ok_iff.mp hproperties
    obtain ⟨shape, hshape, hproperties⟩ := bind_eq_ok_iff.mp hproperties
    obtain ⟨others, hothers, hproperties⟩ := bind_eq_ok_iff.mp hproperties
    obtain rfl := Except.ok.inj hproperties
    exact List.forall_mem_append.mpr ⟨hschema visiting shape hshape, ih hrest hothers⟩

theorem within_patternShape (h : ∀ entry ∈ fields, projector.UsedWithin names entry.2)
    (hshape : projector.patternShape visiting fields = .ok shape) : shape.Within names := by
  cases fields with
  | nil =>
    obtain rfl := Except.ok.inj hshape
    exact List.forall_mem_nil _
  | cons entry rest => exact h entry List.mem_cons_self visiting shape hshape

theorem within_objectShape {object : ObjectSchema}
    (h : ∀ part ∈ object.parts, projector.UsedWithin names part)
    (hshape : projector.objectShape visiting object = .ok shape) : shape.Within names := by
  obtain ⟨hproperties, hadditional, hpatterns⟩ := ObjectSchema.forall_parts_iff.mp h
  obtain ⟨declared, required, additional, patterns, keys⟩ := object
  rw [objectShape] at hshape
  obtain ⟨properties, hdeclared, hshape⟩ := bind_eq_ok_iff.mp hshape
  obtain ⟨first, -, hshape⟩ := bind_eq_ok_iff.mp hshape
  obtain ⟨others, -, hshape⟩ := bind_eq_ok_iff.mp hshape
  have hnames := within_propertyShapes hproperties hdeclared
  -- Next to the properties there is at most the one type of those whose names are not fixed.
  have hindex : ∀ {index : Option IndexSignature},
      (∀ name ∈ IndexSignature.namesOf index, name ∈ names) →
        (Shape.object properties index).Within names :=
    fun hindex => List.forall_mem_append.mpr ⟨hnames, hindex⟩
  split at hshape
  · obtain rfl := Except.ok.inj hshape
    exact hindex (List.forall_mem_nil _)
  · obtain rfl := Except.ok.inj hshape
    exact hindex (List.forall_mem_nil _)
  · dsimp only at hshape
    split at hshape
    · obtain ⟨value, hvalue, hshape⟩ := bind_eq_ok_iff.mp hshape
      obtain rfl := Except.ok.inj hshape
      exact hindex (hadditional _ rfl visiting value hvalue)
    · obtain ⟨value, hvalue, hshape⟩ := bind_eq_ok_iff.mp hshape
      obtain rfl := Except.ok.inj hshape
      have hwithin := within_patternShape hpatterns hvalue
      exact hindex hwithin
  · obtain rfl := Except.ok.inj hshape
    exact hindex (List.forall_mem_nil _)

/-- **The shape of a kind** mentions what the shapes of its parts mention, and what it refers to
itself. -/
theorem within_kindShape (hparts : ∀ part ∈ kind.parts, projector.UsedWithin names part)
    (hrefers : ∀ name, kind.refName? = some name → name ∈ names)
    (hshape : projector.kindShape visiting kind = .ok shape) : shape.Within names := by
  -- Only the shapes of parts are counted, not the type references that are made of them.
  cases kind with
  | ref reference =>
    obtain rfl := Except.ok.inj hshape
    exact List.forall_mem_singleton.mpr (hrefers _ rfl)
  | object object => exact within_objectShape hparts hshape
  | listOf item =>
    rw [kindShape] at hshape
    obtain ⟨element, helement, hshape⟩ := bind_eq_ok_iff.mp hshape
    obtain ⟨ref, -, hshape⟩ := bind_eq_ok_iff.mp hshape
    obtain rfl := Except.ok.inj hshape
    exact hparts item (List.mem_singleton_self _) visiting element helement
  | tuple items =>
    rw [kindShape] at hshape
    obtain ⟨form, -, hshape⟩ := bind_eq_ok_iff.mp hshape
    cases form with
    | sequence =>
      obtain ⟨element, helement, hshape⟩ := bind_eq_ok_iff.mp hshape
      obtain ⟨ref, -, hshape⟩ := bind_eq_ok_iff.mp hshape
      obtain rfl := Except.ok.inj hshape
      have hwithin := within_headShape hparts helement
      exact hwithin
    | tuple =>
      obtain ⟨elements, helements, hshape⟩ := bind_eq_ok_iff.mp hshape
      obtain ⟨refs, -, hshape⟩ := bind_eq_ok_iff.mp hshape
      obtain rfl := Except.ok.inj hshape
      exact within_shapes hparts helements
    | degraded =>
      obtain rfl := Except.ok.inj hshape
      exact List.forall_mem_nil _
  | anyOf branches =>
    rw [kindShape] at hshape
    split at hshape
    · exact within_payloadShape hparts hshape
    · obtain ⟨refs, -, hshape⟩ := bind_eq_ok_iff.mp hshape
      obtain rfl := Except.ok.inj hshape
      exact List.forall_mem_nil _
  | enum type values =>
    obtain rfl := Except.ok.inj hshape
    rw [enumShape]
    split <;> exact List.forall_mem_nil _
  | _ =>
    obtain rfl := Except.ok.inj hshape
    exact List.forall_mem_nil _

end Parts

/-! ### Shapes of schemas -/

/-- The property bounds the names in shapes: schemas that have it go by names of the set, and
where they are spelled out, the schemas in them have it, too. -/
structure Bounds (projector : Projector) (names : Set String) (p : Schema → Prop) : Prop where
  used : ∀ schema, p schema → ∀ name, schema.useName? = some name → name ∈ names
  parts : ∀ schema, p schema → schema.title = none ∨ projector.options.inlineNamed = true →
    ∀ part ∈ schema.kind.parts, p part

/-- The shape of a schema that is spelled out. -/
theorem within_expand (hparts : ∀ part ∈ schema.kind.parts, projector.UsedWithin names part)
    (hused : ∀ name, schema.useName? = some name → name ∈ names) {top : Bool}
    (hshape : projector.expand visiting top schema = .ok shape) : shape.Within names := by
  obtain ⟨title, description, kind, extra⟩ := schema
  unfold expand at hshape
  split at hshape
  · obtain rfl := Except.ok.inj hshape
    cases title with
    | some title => exact List.forall_mem_singleton.mpr (hused title rfl)
    | none => exact List.forall_mem_singleton.mpr (hused _ rfl)
  · obtain rfl := Except.ok.inj hshape
    exact List.forall_mem_nil _
  · next title hplain _ =>
    split at hshape
    · obtain rfl := Except.ok.inj hshape
      exact List.forall_mem_singleton.mpr (hused title rfl)
    · refine within_kindShape hparts (fun name hname => ?_) hshape
      cases kind with
      | ref reference => exact absurd rfl (hplain reference)
      | _ => cases hname
  · exact within_kindShape hparts hused hshape

/-- **The names in the shape of a schema at a use**, from a property that bounds them.  By
induction on the schema: only where it is spelled out are the shapes of its parts asked for. -/
theorem Bounds.usedWithin (hbounds : projector.Bounds names p) (h : p schema) :
    projector.UsedWithin names schema := by
  induction schema using Schema.induction_parts with
  | h schema ih =>
    intro visiting shape hshape
    by_cases hnamed : schema.title = none ∨ projector.options.inlineNamed = true
    · have hparts := hbounds.parts schema h hnamed
      exact within_expand (fun part hpart => ih part hpart (hparts part hpart))
        (hbounds.used schema h) hshape
    · -- The schema is named, so its shape is that of its title.
      obtain ⟨title, description, kind, extra⟩ := schema
      obtain ⟨htitled, hkept⟩ := not_or.mp hnamed
      obtain ⟨title, rfl⟩ := Option.ne_none_iff_exists'.mp htitled
      have htitle := hbounds.used _ h title rfl
      unfold expand at hshape
      split at hshape
      · obtain rfl := Except.ok.inj hshape
        exact List.forall_mem_singleton.mpr htitle
      · obtain rfl := Except.ok.inj hshape
        exact List.forall_mem_nil _
      · next heq _ _ =>
        obtain rfl := Option.some.inj heq
        rw [if_pos (by simp [isNamed, hkept])] at hshape
        obtain rfl := Except.ok.inj hshape
        exact List.forall_mem_singleton.mpr htitle
      · next heq _ _ => cases heq

/-- **The names in the shape of a schema at its declaration.** -/
theorem Bounds.within_shape (hbounds : projector.Bounds names p)
    (hparts : ∀ part ∈ schema.kind.parts, p part)
    (hused : ∀ name, schema.useName? = some name → name ∈ names)
    (hshape : projector.shape schema = .ok shape) : shape.Within names :=
  within_expand (fun part hpart => hbounds.usedWithin (hparts part hpart)) hused hshape

/-! ### Bounds -/

/-- **All names that schemas go by, at any depth, bound the names in shapes.** -/
theorem bounds_usesOnly (projector : Projector) (names : Set String) :
    projector.Bounds names (Schema.UsesOnly names) where
  used _ h := h.own
  parts _ h _ := h.parts

/-- The names below a schema are those in its shape, when it has no title. -/
theorem namesBelow_of_untitled (h : schema.title = none) :
    schema.namesBelow = Kind.names schema.kind := by
  obtain ⟨title, description, kind, extra⟩ := schema
  obtain rfl : title = none := h
  rfl

private theorem namesInItems_eq (items : List Schema) :
    Schema.namesInItems items = items.flatMap Schema.namesBelow := by
  induction items with
  | nil => rfl
  | cons item rest ih => rw [Schema.namesInItems, List.flatMap_cons, ih]

private theorem namesInFields_eq (fields : Fields Schema) :
    Schema.namesInFields fields = (Fields.values fields).flatMap Schema.namesBelow := by
  induction fields with
  | nil => rfl
  | cons entry rest ih =>
    rw [Schema.namesInFields, ih]
    rfl

/-- The names below the parts of a shape are names in the shape. -/
theorem names_of_mem_parts {part : Schema} {name : String} (hpart : part ∈ kind.parts)
    (hname : name ∈ part.namesBelow) : name ∈ Kind.names kind := by
  cases kind with
  | object object =>
    have hflat : name ∈ object.parts.flatMap Schema.namesBelow :=
      List.mem_flatMap.mpr ⟨part, hpart, hname⟩
    obtain ⟨properties, required, additional, patterns, keys⟩ := object
    have hadditional : Additional.names additional
        = additional.schema?.toList.flatMap Schema.namesBelow := by
      cases additional <;> simp [Additional.names, Additional.schema?]
    rw [Kind.names, ObjectSchema.schemaNames, namesInFields_eq, namesInFields_eq, hadditional,
      List.append_assoc]
    rwa [ObjectSchema.parts, List.flatMap_append, List.flatMap_append] at hflat
  | listOf item =>
    rw [List.mem_singleton.mp hpart] at hname
    exact hname
  | tuple items | allOf items | anyOf items =>
    rw [Kind.names, namesInItems_eq]
    exact List.mem_flatMap.mpr ⟨part, hpart, hname⟩
  | _ => exact absurd hpart List.not_mem_nil

/-- **The names down to the next titles bound the names in shapes**, when named schemas are not
inlined. -/
theorem bounds_namesBelow (hkept : projector.options.inlineNamed = false) (names : Set String) :
    projector.Bounds names fun schema => ∀ name ∈ schema.namesBelow, name ∈ names where
  used schema h name hname := by
    obtain ⟨title, description, kind, extra⟩ := schema
    rcases Option.or_eq_some_iff.mp hname with htitle | ⟨htitle, hrefers⟩
    · obtain rfl : title = some name := htitle
      exact h name (List.mem_singleton_self _)
    · obtain rfl : title = none := htitle
      cases kind with
      | ref reference =>
        obtain rfl := Option.some.inj hrefers
        exact h _ (List.mem_singleton_self _)
      | _ => cases hrefers
  parts schema h hplain part hpart name hname := by
    have huntitled : schema.title = none := by
      rcases hplain with huntitled | hinlined
      · exact huntitled
      · rw [hkept] at hinlined
        cases hinlined
    refine h name ?_
    rw [namesBelow_of_untitled huntitled]
    exact names_of_mem_parts hpart hname

/-- **What a declaration mentions, the schema depends on**, but for its own name, when named
schemas are not inlined. -/
theorem names_shape_subset (hkept : projector.options.inlineNamed = false) {name : String}
    (htitle : schema.title = some name) (hshape : projector.shape schema = .ok shape) :
    shape.Within {other | other = name ∨ other ∈ Kind.names schema.kind} := by
  refine (bounds_namesBelow hkept _).within_shape (fun part hpart other hother => ?_)
    (fun other hother => ?_) hshape
  · exact .inr (names_of_mem_parts hpart hother)
  · rw [Schema.useName?, htitle, Option.some_or, Option.some.injEq] at hother
    exact .inl hother.symm

end Projector

end RpcSchema
