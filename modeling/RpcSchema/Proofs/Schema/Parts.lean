import RpcSchema.Proofs.Json.Objects
import RpcSchema.Schema.Basic

/-!
# The schemas within a schema

A schema is made of schemas: those of its properties, items, parts and branches.
Statements such as "there is no intersection at any depth" speak of all of them.

## Main definitions

* `Kind.parts` — the schemas directly below a shape.
* `Schema.Every p` — a schema and all schemas within it satisfy `p`.
* `Schema.all` — a schema and all schemas within it, as a list; it decides `Every`.
* `Schema.DistinctNames` — all maps in a schema have distinct names.

## Main results

* `Schema.induction_parts` — induction from the parts of a schema to the schema.
* `Schema.every_iff`, `Schema.every_iff_all` — one level, and all levels at once.
-/

namespace RpcSchema

/-! ### Parts -/

/-- The schemas directly below an object shape. -/
def ObjectSchema.parts (shape : ObjectSchema) : List Schema :=
  Fields.values shape.properties ++
    (shape.additional.schema?.toList ++ Fields.values shape.patterns)

/-- The schemas directly below a shape. -/
def Kind.parts : Kind → List Schema
  | .object shape => shape.parts
  | .listOf item => [item]
  | .tuple items => items
  | .allOf parts => parts
  | .anyOf branches => branches
  | _ => []

variable {shape : ObjectSchema} {schema part : Schema} {name : String}

theorem Fields.mem_values_of_mem {fields : Fields Schema} (h : (name, schema) ∈ fields) :
    schema ∈ Fields.values fields :=
  List.mem_map.mpr ⟨(name, schema), h, rfl⟩

theorem ObjectSchema.mem_parts_of_property (h : (name, part) ∈ shape.properties) :
    part ∈ shape.parts :=
  List.mem_append_left _ (Fields.mem_values_of_mem h)

theorem ObjectSchema.mem_parts_of_additional (h : shape.additional = .schema part) :
    part ∈ shape.parts :=
  List.mem_append_right _ (List.mem_append_left _ (by simp [h, Additional.schema?]))

theorem ObjectSchema.mem_parts_of_pattern (h : (name, part) ∈ shape.patterns) :
    part ∈ shape.parts :=
  List.mem_append_right _ (List.mem_append_right _ (Fields.mem_values_of_mem h))

/-- What holds of all schemas directly below an object shape. -/
theorem ObjectSchema.forall_parts_iff {p : Schema → Prop} :
    (∀ part ∈ shape.parts, p part) ↔
      (∀ entry ∈ shape.properties, p entry.2) ∧
        (∀ value, shape.additional = .schema value → p value) ∧
          ∀ entry ∈ shape.patterns, p entry.2 := by
  have hadditional : (∀ part ∈ shape.additional.schema?.toList, p part) ↔
      ∀ value, shape.additional = .schema value → p value := by
    cases shape.additional <;> simp [Additional.schema?]
  rw [ObjectSchema.parts, List.forall_mem_append, List.forall_mem_append, hadditional,
    Fields.values, Fields.values, List.forall_mem_map, List.forall_mem_map]

theorem ObjectSchema.sizeOf_lt_of_mem_parts (h : part ∈ shape.parts) :
    sizeOf part < sizeOf shape := by
  revert h part
  rw [ObjectSchema.forall_parts_iff]
  obtain ⟨properties, required, additional, patterns, names⟩ := shape
  refine ⟨fun entry hmem => ?_, fun value hvalue => ?_, fun entry hmem => ?_⟩
  · obtain ⟨name, part⟩ := entry
    have := List.sizeOf_lt_of_mem hmem
    simp only [Prod.mk.sizeOf_spec, ObjectSchema.mk.sizeOf_spec] at this ⊢
    omega
  · obtain rfl : additional = .schema value := hvalue
    simp only [ObjectSchema.mk.sizeOf_spec, Additional.schema.sizeOf_spec]
    omega
  · obtain ⟨name, part⟩ := entry
    have := List.sizeOf_lt_of_mem hmem
    simp only [Prod.mk.sizeOf_spec, ObjectSchema.mk.sizeOf_spec] at this ⊢
    omega

theorem Kind.sizeOf_lt_of_mem_parts {kind : Kind} (h : part ∈ kind.parts) :
    sizeOf part < sizeOf kind := by
  cases kind with
  | object shape =>
    have := ObjectSchema.sizeOf_lt_of_mem_parts h
    simp only [Kind.object.sizeOf_spec]
    omega
  | listOf item =>
    obtain rfl := List.mem_singleton.mp h
    simp only [Kind.listOf.sizeOf_spec]
    omega
  | tuple items =>
    have hmem : part ∈ items := h
    have := List.sizeOf_lt_of_mem hmem
    simp only [Kind.tuple.sizeOf_spec]
    omega
  | allOf parts =>
    have hmem : part ∈ parts := h
    have := List.sizeOf_lt_of_mem hmem
    simp only [Kind.allOf.sizeOf_spec]
    omega
  | anyOf branches =>
    have hmem : part ∈ branches := h
    have := List.sizeOf_lt_of_mem hmem
    simp only [Kind.anyOf.sizeOf_spec]
    omega
  | _ => exact absurd h List.not_mem_nil

namespace Schema

theorem sizeOf_lt_of_mem_parts (h : part ∈ schema.kind.parts) : sizeOf part < sizeOf schema := by
  have := Kind.sizeOf_lt_of_mem_parts h
  obtain ⟨title, description, kind, extra⟩ := schema
  simp only [Schema.mk.sizeOf_spec] at this ⊢
  omega

/-- What passes from the parts of a schema to the schema holds of all schemas. -/
theorem induction_parts {motive : Schema → Prop}
    (h : ∀ schema, (∀ part ∈ schema.kind.parts, motive part) → motive schema) (schema : Schema) :
    motive schema :=
  h schema fun part _hpart => induction_parts h part
termination_by sizeOf schema
decreasing_by exact sizeOf_lt_of_mem_parts _hpart

/-! ### What holds at every depth -/

/-- A schema and all schemas within it satisfy `p`. -/
inductive Every (p : Schema → Prop) : Schema → Prop
  | intro {schema : Schema} (own : p schema) (parts : ∀ part ∈ schema.kind.parts, Every p part) :
      Every p schema

variable {p q : Schema → Prop}

theorem Every.own (h : schema.Every p) : p schema := by
  cases h with
  | intro own _ => exact own

theorem Every.parts (h : schema.Every p) : ∀ part ∈ schema.kind.parts, part.Every p := by
  cases h with
  | intro _ parts => exact parts

theorem Every.parts_of_kind_eq {kind : Kind} (h : schema.Every p) (hkind : schema.kind = kind) :
    ∀ part ∈ kind.parts, part.Every p :=
  hkind ▸ h.parts

theorem Every.item {item : Schema} (h : schema.Every p) (hkind : schema.kind = .listOf item) :
    item.Every p :=
  h.parts_of_kind_eq hkind item (List.mem_singleton_self _)

theorem every_iff : schema.Every p ↔ p schema ∧ ∀ part ∈ schema.kind.parts, part.Every p :=
  ⟨fun h => ⟨h.own, h.parts⟩, fun h => .intro h.1 h.2⟩

theorem Every.mono (h : schema.Every p) (himp : ∀ schema, p schema → q schema) :
    schema.Every q := by
  induction h with
  | intro own _ ih => exact .intro (himp _ own) ih

theorem Every.and (h : schema.Every p) (h' : schema.Every q) :
    schema.Every fun schema => p schema ∧ q schema := by
  induction h with
  | intro own _ ih =>
    exact .intro ⟨own, h'.own⟩ fun part hpart => ih part hpart (h'.parts part hpart)

/-- Only the shape decides about the schemas within. -/
theorem Every.of_kind_eq {other : Schema} (h : schema.Every p) (hkind : other.kind = schema.kind)
    (hother : p other) : other.Every p :=
  .intro hother fun _ hpart => h.parts _ (hkind ▸ hpart)

end Schema

/-! ### All schemas in a list -/

mutual

/-- A schema and all schemas within it. -/
def Schema.all : Schema → List Schema
  | ⟨title, description, kind, extra⟩ => ⟨title, description, kind, extra⟩ :: Kind.all kind

/-- All schemas below a shape. -/
def Kind.all : Kind → List Schema
  | .object shape => ObjectSchema.all shape
  | .listOf item => Schema.all item
  | .tuple items => Schema.allItems items
  | .allOf parts => Schema.allItems parts
  | .anyOf branches => Schema.allItems branches
  | _ => []

/-- All schemas below an object shape. -/
def ObjectSchema.all : ObjectSchema → List Schema
  | ⟨properties, _, additional, patterns, _⟩ =>
    Schema.allFields properties ++ (Additional.all additional ++ Schema.allFields patterns)

/-- All schemas of undeclared properties. -/
def Additional.all : Additional → List Schema
  | .schema value => Schema.all value
  | _ => []

/-- All schemas in a list. -/
def Schema.allItems : List Schema → List Schema
  | [] => []
  | schema :: rest => Schema.all schema ++ Schema.allItems rest

/-- All schemas in a list of named ones. -/
def Schema.allFields : List (String × Schema) → List Schema
  | [] => []
  | (_, schema) :: rest => Schema.all schema ++ Schema.allFields rest

end

theorem Schema.allItems_eq : ∀ items : List Schema,
    Schema.allItems items = items.flatMap Schema.all
  | [] => rfl
  | schema :: rest => by rw [allItems, allItems_eq rest, List.flatMap_cons]

theorem Schema.allFields_eq : ∀ fields : List (String × Schema),
    Schema.allFields fields = (Fields.values fields).flatMap Schema.all
  | [] => rfl
  | (name, schema) :: rest => by
    rw [allFields, allFields_eq rest]
    rfl

theorem ObjectSchema.all_eq (shape : ObjectSchema) :
    shape.all = shape.parts.flatMap Schema.all := by
  obtain ⟨properties, required, additional, patterns, names⟩ := shape
  have hadditional : additional.all = additional.schema?.toList.flatMap Schema.all := by
    cases additional <;> simp [Additional.all, Additional.schema?]
  rw [ObjectSchema.all, Schema.allFields_eq, Schema.allFields_eq, hadditional,
    ObjectSchema.parts, List.flatMap_append, List.flatMap_append]

/-- The schemas below a shape are those in its parts. -/
theorem Kind.all_eq (kind : Kind) : kind.all = kind.parts.flatMap Schema.all := by
  cases kind with
  | object shape => exact shape.all_eq
  | listOf item => rw [Kind.all, Kind.parts, List.flatMap_singleton]
  | tuple items => exact Schema.allItems_eq items
  | allOf parts => exact Schema.allItems_eq parts
  | anyOf branches => exact Schema.allItems_eq branches
  | _ => rfl

namespace Schema

/-- **What holds at every depth holds of all schemas in the list.** -/
theorem every_iff_all {p : Schema → Prop} : schema.Every p ↔ ∀ inner ∈ schema.all, p inner := by
  induction schema using induction_parts with
  | h schema ih =>
    obtain ⟨title, description, kind, extra⟩ := schema
    rw [every_iff, all, List.forall_mem_cons, Kind.all_eq]
    refine and_congr_right fun _ => ?_
    simp only [List.mem_flatMap]
    constructor
    · rintro h inner ⟨part, hpart, hinner⟩
      exact (ih part hpart).mp (h part hpart) inner hinner
    · intro h part hpart
      exact (ih part hpart).mpr fun inner hinner => h inner ⟨part, hpart, hinner⟩

instance {p : Schema → Prop} [DecidablePred p] : Decidable (schema.Every p) :=
  decidable_of_iff _ every_iff_all.symm

end Schema

/-! ### Distinct names -/

/-- The values that a shape spells out. -/
def Kind.literals : Kind → List Json
  | .const value => [value]
  | .enum _ values => values
  | _ => []

/-- The maps from names to schemas in a shape. -/
def Kind.maps : Kind → List (Fields Schema)
  | .object shape => [shape.properties, shape.patterns]
  | _ => []

namespace Schema

/-- The maps that a schema itself holds have distinct names: its kept keywords, the objects
in the values it spells out, its properties and its patterns. -/
structure NamesApart (schema : Schema) : Prop where
  extra : (Json.object schema.extra).DistinctNames
  literals : ∀ value ∈ schema.kind.literals, value.DistinctNames
  maps : ∀ fields ∈ schema.kind.maps, (Fields.keys fields).Nodup

/-- All maps in a schema, at every depth, have distinct names. -/
def DistinctNames (schema : Schema) : Prop := schema.Every NamesApart

instance : DecidablePred NamesApart := fun schema =>
  decidable_of_iff ((Json.object schema.extra).DistinctNames ∧
      (∀ value ∈ schema.kind.literals, value.DistinctNames) ∧
        ∀ fields ∈ schema.kind.maps, (Fields.keys fields).Nodup)
    ⟨fun ⟨extra, literals, maps⟩ => ⟨extra, literals, maps⟩, fun h => ⟨h.extra, h.literals, h.maps⟩⟩

instance : Decidable schema.DistinctNames := inferInstanceAs (Decidable (schema.Every NamesApart))

/-- A shape without values and maps of its own, about which nothing else is said. -/
theorem NamesApart.ofKind {kind : Kind} (hliterals : kind.literals = []) (hmaps : kind.maps = []) :
    (Schema.ofKind kind).NamesApart := by
  have hextra : (Json.object []).DistinctNames := by decide
  refine ⟨hextra, fun value hmem => ?_, fun fields hmem => ?_⟩
  · replace hmem : value ∈ kind.literals := hmem
    rw [hliterals] at hmem
    exact absurd hmem List.not_mem_nil
  · replace hmem : fields ∈ kind.maps := hmem
    rw [hmaps] at hmem
    exact absurd hmem List.not_mem_nil

/-- Titles hold no maps. -/
theorem DistinctNames.retitled (h : schema.DistinctNames) (title : Option String) :
    (⟨title, schema.description, schema.kind, schema.extra⟩ : Schema).DistinctNames :=
  Every.of_kind_eq h rfl ⟨h.own.extra, h.own.literals, h.own.maps⟩

theorem NamesApart.nodup_extra (h : schema.NamesApart) : (Fields.keys schema.extra).Nodup :=
  (Json.everyObject_object_iff.mp h.extra).1

theorem NamesApart.nodup_properties (h : schema.NamesApart) (hkind : schema.kind = .object shape) :
    (Fields.keys shape.properties).Nodup :=
  h.maps _ (by simp [hkind, Kind.maps])

theorem NamesApart.nodup_patterns (h : schema.NamesApart) (hkind : schema.kind = .object shape) :
    (Fields.keys shape.patterns).Nodup :=
  h.maps _ (by simp [hkind, Kind.maps])

end Schema

end RpcSchema
