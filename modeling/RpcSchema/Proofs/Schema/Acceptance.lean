import RpcSchema.Distinct
import RpcSchema.Proofs.Schema.Equality

/-!
# What schemas accept

A schema accepts some values and refuses the others.  Not all of it is said by the schema
itself: what a reference accepts, which names a pattern matches and how many elements an
array described position by position may have is decided elsewhere, so acceptance is
relative to an interpretation of these.

What a schema accepts, an equal one accepts, whatever the interpretation.

## Main definitions

* `Interpretation` — what a schema leaves to be decided elsewhere.
* `Kind.Accepts`, `Schema.Accepts` — acceptance, one rule for each shape.
* `ObjectSchema.Admits` — what an object shape asks of the members of a value.
* `Kind.Within ρ k l` — whatever `k` accepts, `l` accepts.
* `Kind.Narrower` — the left shape accepts no more, as the shapes themselves tell.

## Main results

* `Kind.accepts_object_iff` — objects are accepted when the shape admits their members.
* `Schema.Accepts.of_beq` — what a schema accepts, an equal one accepts.
* `Kind.Narrower.within` — a narrower shape accepts no more.
-/

namespace RpcSchema

/-! ### Literals -/

/-- A type admits equal values alike. -/
theorem Primitive.admits_of_beq {x y : Json} (p : Primitive) (h : (x == y) = true) :
    p.admits x = p.admits y := by
  rw [Json.beq_iff_sameParts] at h
  cases h with
  | null => rfl
  | bool b => rfl
  | string s => rfl
  | array h => cases p <;> rfl
  | object h => cases p <;> rfl
  | @number m n h =>
    cases m with
    | int m =>
      cases n with
      | int n => cases p <;> rfl
      | float y => cases h
    | float x =>
      cases n with
      | int n => cases h
      | float y =>
        rcases Number.float_beq_float_iff.mp h with rfl | ⟨hx, hy⟩
        · rfl
        · have hwhole : x.isWhole = y.isWhole := by
            rw [Binary64.isWhole, Binary64.isWhole, hx, hy]
            simp only [Nat.zero_mod, decide_true, Bool.or_true]
          cases p <;> first | rfl | exact hwhole

/-- An integer is a number. -/
theorem Primitive.admits_number_of_integer {value : Json}
    (h : Primitive.integer.admits value = true) : Primitive.number.admits value = true := by
  cases value with
  | number n => rfl
  | _ => cases h

namespace Json

variable {values others : List Json} {value other : Json}

theorem contains_of_beq (h : (value == other) = true) (hother : values.contains other = true) :
    values.contains value = true := by
  obtain ⟨listed, hmem, heq⟩ := List.contains_iff_exists_mem_beq.mp hother
  exact List.contains_iff_exists_mem_beq.mpr ⟨listed, hmem, beq_trans h heq⟩

theorem contains_appendNew : (appendNew values other).contains value = true ↔
    values.contains value = true ∨ (value == other) = true := by
  unfold appendNew
  split
  · next hother => exact ⟨Or.inl, fun h => h.elim id fun heq => contains_of_beq heq hother⟩
  · rw [List.contains_iff_exists_mem_beq, List.contains_iff_exists_mem_beq]
    simp only [List.mem_append, List.mem_singleton, or_and_right, exists_or, exists_eq_left]

/-- A union of lists has what one of the lists has, up to equality. -/
theorem contains_unionOf : (unionOf values others).contains value = true ↔
    values.contains value = true ∨ others.contains value = true := by
  induction others generalizing values with
  | nil => simp
  | cons other others ih =>
    rw [unionOf_cons, ih, contains_appendNew, List.contains_cons, Bool.or_eq_true, or_assoc]

/-- Common values are those that both lists have, up to equality. -/
theorem contains_filter_contains (hvalue : value.DistinctNames) :
    (values.filter others.contains).contains value = true ↔
      values.contains value = true ∧ others.contains value = true := by
  simp only [List.contains_iff_exists_mem_beq, List.mem_filter]
  constructor
  · rintro ⟨listed, ⟨hmem, other, hother, heq⟩, hlisted⟩
    exact ⟨⟨listed, hmem, hlisted⟩, other, hother, beq_trans hlisted heq⟩
  · rintro ⟨⟨listed, hmem, hlisted⟩, other, hother, heq⟩
    exact ⟨listed, ⟨hmem, other, hother, beq_trans (beq_symm hvalue hlisted) heq⟩, hlisted⟩

theorem contains_of_forall₂ {listed : List Json}
    (h : List.Forall₂ (fun x y => (x == y) = true) values listed)
    (hvalue : values.contains value = true) : listed.contains value = true := by
  rw [List.contains_iff_exists_mem_beq] at hvalue ⊢
  obtain ⟨x, hmem, hx⟩ := hvalue
  obtain ⟨y, hy, hxy⟩ := exists_mem_of_forall₂ h hmem
  exact ⟨y, hy, beq_trans hx hxy⟩

end Json

/-! ### Acceptance -/

/-- What a schema leaves to be decided elsewhere. -/
structure Interpretation where
  /-- The values that a reference accepts. -/
  references : String → Json → Prop
  /-- The names that a pattern matches. -/
  covers : String → String → Prop
  /-- The numbers of elements of an array that so many schemas describe by position. -/
  lengths : Nat → Nat → Prop

/-- The name is neither declared nor matched by a pattern. -/
def ObjectSchema.IsOther (ρ : Interpretation) (shape : ObjectSchema) (name : String) : Prop :=
  name ∉ Fields.keys shape.properties ∧
    ∀ pattern ∈ Fields.keys shape.patterns, ¬ρ.covers pattern name

/-- The names that properties may have are not limited, or the name is one of them. -/
def ObjectSchema.AllowsName (shape : ObjectSchema) (name : String) : Prop :=
  ∀ allowed, shape.names = some allowed → name ∈ allowed

/-- The shape accepts the value. -/
inductive Kind.Accepts (ρ : Interpretation) : Kind → Json → Prop
  | ref {reference : String} {value : Json} (h : ρ.references reference value) :
      Accepts ρ (.ref reference) value
  | const {constant value : Json} (h : (value == constant) = true) :
      Accepts ρ (.const constant) value
  | enum {type : Option Primitive} {values : List Json} {value : Json}
      (h : values.contains value = true) : Accepts ρ (.enum type values) value
  | object {shape : ObjectSchema} {fields : Fields Json}
      (required : ∀ name ∈ shape.required, name ∈ Fields.keys fields)
      (properties : ∀ name schema value, Fields.get? shape.properties name = some schema →
        Fields.get? fields name = some value → Accepts ρ schema.kind value)
      (patterns : ∀ pattern schema name value, Fields.get? shape.patterns pattern = some schema →
        ρ.covers pattern name → Fields.get? fields name = some value → Accepts ρ schema.kind value)
      (closed : shape.additional = .allowed false →
        ∀ name ∈ Fields.keys fields, ¬shape.IsOther ρ name)
      (additional : ∀ schema, shape.additional = .schema schema → ∀ name value,
        shape.IsOther ρ name → Fields.get? fields name = some value → Accepts ρ schema.kind value)
      (names : ∀ name ∈ Fields.keys fields, shape.AllowsName name) :
      Accepts ρ (.object shape) (.object fields)
  | list {values : List Json} : Accepts ρ .list (.array values)
  | listOf {item : Schema} {values : List Json} (h : ∀ value ∈ values, Accepts ρ item.kind value) :
      Accepts ρ (.listOf item) (.array values)
  | tuple {items : List Schema} {values : List Json} (length : ρ.lengths items.length values.length)
      (h : ∀ (index : Nat) item value, items[index]? = some item → values[index]? = some value →
        Accepts ρ item.kind value) :
      Accepts ρ (.tuple items) (.array values)
  | allOf {parts : List Schema} {value : Json} (h : ∀ part ∈ parts, Accepts ρ part.kind value) :
      Accepts ρ (.allOf parts) value
  | anyOf {branches : List Schema} {value : Json} (branch : Schema) (hmem : branch ∈ branches)
      (h : Accepts ρ branch.kind value) : Accepts ρ (.anyOf branches) value
  | primitive {type : Primitive} {value : Json} (h : type.admits value = true) :
      Accepts ρ (.primitive type) value
  | empty {value : Json} : Accepts ρ .empty value

/-- The schema accepts the value: its shape does. -/
def Schema.Accepts (ρ : Interpretation) (schema : Schema) (value : Json) : Prop :=
  schema.kind.Accepts ρ value

/-- What an object shape asks of the members of a value. -/
structure ObjectSchema.Admits (ρ : Interpretation) (shape : ObjectSchema) (fields : Fields Json) :
    Prop where
  required : ∀ name ∈ shape.required, name ∈ Fields.keys fields
  properties : ∀ name schema value, Fields.get? shape.properties name = some schema →
    Fields.get? fields name = some value → schema.Accepts ρ value
  patterns : ∀ pattern schema name value, Fields.get? shape.patterns pattern = some schema →
    ρ.covers pattern name → Fields.get? fields name = some value → schema.Accepts ρ value
  closed : shape.additional = .allowed false → ∀ name ∈ Fields.keys fields, ¬shape.IsOther ρ name
  additional : ∀ schema, shape.additional = .schema schema → ∀ name value,
    shape.IsOther ρ name → Fields.get? fields name = some value → schema.Accepts ρ value
  names : ∀ name ∈ Fields.keys fields, shape.AllowsName name

variable {ρ : Interpretation} {value : Json}

namespace Kind

@[simp] theorem accepts_ref_iff {reference : String} :
    (Kind.ref reference).Accepts ρ value ↔ ρ.references reference value :=
  ⟨fun h => by cases h with | ref h => exact h, .ref⟩

@[simp] theorem accepts_const_iff {constant : Json} :
    (Kind.const constant).Accepts ρ value ↔ (value == constant) = true :=
  ⟨fun h => by cases h with | const h => exact h, .const⟩

@[simp] theorem accepts_enum_iff {type : Option Primitive} {values : List Json} :
    (Kind.enum type values).Accepts ρ value ↔ values.contains value = true :=
  ⟨fun h => by cases h with | enum h => exact h, .enum⟩

/-- **Objects are accepted** when the shape admits their members. -/
theorem accepts_object_iff {shape : ObjectSchema} : (Kind.object shape).Accepts ρ value ↔
    ∃ fields, value = .object fields ∧ shape.Admits ρ fields := by
  constructor
  · intro h
    cases h with
    | object required properties patterns closed additional names =>
      exact ⟨_, rfl, ⟨required, properties, patterns, closed, additional, names⟩⟩
  · rintro ⟨fields, rfl, h⟩
    exact .object h.required h.properties h.patterns h.closed h.additional h.names

@[simp] theorem accepts_list_iff : Kind.list.Accepts ρ value ↔ ∃ values, value = .array values :=
  ⟨fun h => by cases h with | list => exact ⟨_, rfl⟩, by rintro ⟨values, rfl⟩; exact .list⟩

@[simp] theorem accepts_listOf_iff {item : Schema} : (Kind.listOf item).Accepts ρ value ↔
    ∃ values, value = .array values ∧ ∀ element ∈ values, item.Accepts ρ element :=
  ⟨fun h => by cases h with | listOf h => exact ⟨_, rfl, h⟩,
    by rintro ⟨values, rfl, h⟩; exact .listOf h⟩

@[simp] theorem accepts_tuple_iff {items : List Schema} : (Kind.tuple items).Accepts ρ value ↔
    ∃ values, value = .array values ∧ ρ.lengths items.length values.length ∧
      ∀ (index : Nat) item element, items[index]? = some item → values[index]? = some element →
        item.Accepts ρ element :=
  ⟨fun h => by cases h with | tuple length h => exact ⟨_, rfl, length, h⟩,
    by rintro ⟨values, rfl, length, h⟩; exact .tuple length h⟩

@[simp] theorem accepts_allOf_iff {parts : List Schema} :
    (Kind.allOf parts).Accepts ρ value ↔ ∀ part ∈ parts, part.Accepts ρ value :=
  ⟨fun h => by cases h with | allOf h => exact h, .allOf⟩

@[simp] theorem accepts_anyOf_iff {branches : List Schema} :
    (Kind.anyOf branches).Accepts ρ value ↔ ∃ branch ∈ branches, branch.Accepts ρ value :=
  ⟨fun h => by cases h with | anyOf branch hmem h => exact ⟨branch, hmem, h⟩,
    fun ⟨branch, hmem, h⟩ => .anyOf branch hmem h⟩

@[simp] theorem accepts_primitive_iff {type : Primitive} :
    (Kind.primitive type).Accepts ρ value ↔ type.admits value = true :=
  ⟨fun h => by cases h with | primitive h => exact h, .primitive⟩

@[simp] theorem accepts_empty : Kind.empty.Accepts ρ value := .empty

@[simp] theorem not_accepts_never : ¬Kind.never.Accepts ρ value := fun h => by cases h

end Kind

/-! ### Equal schemas accept the same values -/

/-- An object shape made in the same way of wider parts admits no less. -/
theorem ObjectSchema.Alike.admits {r : Schema → Schema → Prop} {a b : ObjectSchema}
    (halike : a.Alike r b) (hproperties : (Fields.keys a.properties).Nodup)
    (hpatterns : (Fields.keys a.patterns).Nodup)
    (hr : ∀ x ∈ a.parts, ∀ y, r x y → ∀ value, x.Accepts ρ value → y.Accepts ρ value)
    {fields : Fields Json} (h : a.Admits ρ fields) : b.Admits ρ fields := by
  have hother : ∀ name, b.IsOther ρ name → a.IsOther ρ name := fun name ⟨hfree, hunmatched⟩ =>
    ⟨fun hname => hfree ((halike.properties.keys_perm hproperties).mem_iff.mp hname),
      fun pattern hpattern => hunmatched pattern
        ((halike.patterns.keys_perm hpatterns).mem_iff.mp hpattern)⟩
  have hadditional := halike.additional
  refine ⟨halike.required ▸ h.required, ?_, ?_, ?_, ?_, ?_⟩
  · intro name y value hy hvalue
    obtain ⟨x, hx, hxy⟩ := halike.properties.get?_right hproperties hy
    exact hr x (ObjectSchema.mem_parts_of_property (Fields.mem_of_get? hx)) y hxy value
      (h.properties name x value hx hvalue)
  · intro pattern y name value hy hcovers hvalue
    obtain ⟨x, hx, hxy⟩ := halike.patterns.get?_right hpatterns hy
    exact hr x (ObjectSchema.mem_parts_of_pattern (Fields.mem_of_get? hx)) y hxy value
      (h.patterns pattern x name value hx hcovers hvalue)
  · intro hclosed name hname hfree
    rw [hclosed] at hadditional
    generalize hx : a.additional = x at hadditional
    cases hadditional with
    | allowed => exact h.closed hx name hname (hother name hfree)
  · intro y hy name value hfree hvalue
    rw [hy] at hadditional
    generalize hx : a.additional = additional at hadditional
    cases hadditional with
    | @schema x _ hxy =>
      exact hr x (ObjectSchema.mem_parts_of_additional hx) y hxy value
        (h.additional x hx name value (hother name hfree) hvalue)
  · intro name hname
    rw [ObjectSchema.AllowsName, ← halike.names]
    exact h.names name hname

/-- A shape made in the same way of wider parts accepts no less. -/
theorem Kind.Alike.accepts {r : Schema → Schema → Prop} {k l : Kind} (halike : k.Alike r l)
    (hmaps : ∀ fields ∈ k.maps, (Fields.keys fields).Nodup)
    (hr : ∀ a ∈ k.parts, ∀ b, r a b → ∀ value, a.Accepts ρ value → b.Accepts ρ value)
    (h : k.Accepts ρ value) : l.Accepts ρ value := by
  cases halike with
  | ref reference => exact h
  | const heq => exact Kind.accepts_const_iff.mpr (Json.beq_trans (Kind.accepts_const_iff.mp h) heq)
  | enum type heq =>
    exact Kind.accepts_enum_iff.mpr (Json.contains_of_forall₂ heq (Kind.accepts_enum_iff.mp h))
  | object hshapes =>
    obtain ⟨fields, rfl, hfields⟩ := Kind.accepts_object_iff.mp h
    have hproperties := hmaps _ (List.mem_cons_self ..)
    have hpatterns := hmaps _ (List.mem_cons_of_mem _ (List.mem_cons_self ..))
    exact Kind.accepts_object_iff.mpr ⟨fields, rfl, hshapes.admits hproperties hpatterns hr hfields⟩
  | list => exact h
  | @listOf a b hab =>
    obtain ⟨values, rfl, hvalues⟩ := Kind.accepts_listOf_iff.mp h
    exact Kind.accepts_listOf_iff.mpr ⟨values, rfl, fun element hmem =>
      hr a (List.mem_singleton_self _) b hab element (hvalues element hmem)⟩
  | @tuple as bs hitems =>
    obtain ⟨values, rfl, hlength, hvalues⟩ := Kind.accepts_tuple_iff.mp h
    refine Kind.accepts_tuple_iff.mpr ⟨values, rfl, hitems.length_eq ▸ hlength, ?_⟩
    intro index b element hb helement
    obtain ⟨a, ha, hab⟩ := getElem?_of_forall₂ (r := flip r) hitems.flip hb
    exact hr a (List.mem_of_getElem? ha) b hab element (hvalues index a element ha helement)
  | @allOf as bs hparts =>
    refine Kind.accepts_allOf_iff.mpr fun b hb => ?_
    obtain ⟨a, ha, hab⟩ := exists_mem_of_forall₂_right hparts hb
    exact hr a ha b hab value (Kind.accepts_allOf_iff.mp h a ha)
  | @anyOf as bs hbranches =>
    obtain ⟨a, ha, haccepts⟩ := Kind.accepts_anyOf_iff.mp h
    obtain ⟨b, hb, hab⟩ := exists_mem_of_forall₂ hbranches ha
    exact Kind.accepts_anyOf_iff.mpr ⟨b, hb, hr a ha b hab value haccepts⟩
  | primitive type => exact h
  | empty => exact h
  | never => exact h

namespace Schema

variable {a b : Schema}

/-- **What a schema accepts, an equal one accepts.** -/
theorem Accepts.of_beq (ha : a.DistinctNames) (hab : (a == b) = true) (h : a.Accepts ρ value) :
    b.Accepts ρ value := by
  induction ha generalizing b value with
  | intro own _ ih =>
    obtain ⟨-, -, halike, -⟩ := Schema.beq_iff.mp hab
    exact halike.accepts own.maps (fun part hpart other heq value => ih part hpart heq) h

end Schema

/-! ### One shape within another -/

/-- Whatever `k` accepts, `l` accepts. -/
def Kind.Within (ρ : Interpretation) (k l : Kind) : Prop :=
  ∀ value, k.Accepts ρ value → l.Accepts ρ value

/-- The left shape accepts no more, as the shapes themselves tell: one spells out values that
the other admits, has fewer values, or says more about items. -/
inductive Kind.Narrower : Kind → Kind → Prop
  | never (l : Kind) : Narrower .never l
  | empty (k : Kind) : Narrower k .empty
  | ref (reference : String) : Narrower (.ref reference) (.ref reference)
  | const {x y : Json} (h : (x == y) = true) : Narrower (.const x) (.const y)
  | constOfEnum {x : Json} (type : Option Primitive) {ys : List Json}
      (h : ys.contains x = true) : Narrower (.const x) (.enum type ys)
  | constOfPrimitive {x : Json} {p : Primitive} (h : p.admits x = true) :
      Narrower (.const x) (.primitive p)
  | enumOfPrimitive (type : Option Primitive) {xs : List Json} {p : Primitive}
      (h : xs.all p.admits = true) : Narrower (.enum type xs) (.primitive p)
  | primitive (p : Primitive) : Narrower (.primitive p) (.primitive p)
  | integer : Narrower (.primitive .integer) (.primitive .number)
  | list : Narrower .list .list
  | listOf (item : Schema) : Narrower (.listOf item) .list
  | tuple (items : List Schema) : Narrower (.tuple items) .list

/-- **A narrower shape accepts no more.** -/
theorem Kind.Narrower.within {k l : Kind} (h : k.Narrower l) : k.Within ρ l := by
  intro value hvalue
  cases h with
  | never l => exact absurd hvalue Kind.not_accepts_never
  | empty k => exact Kind.accepts_empty
  | ref reference => exact hvalue
  | const h => exact Kind.accepts_const_iff.mpr (Json.beq_trans (Kind.accepts_const_iff.mp hvalue) h)
  | constOfEnum type h =>
    exact Kind.accepts_enum_iff.mpr (Json.contains_of_beq (Kind.accepts_const_iff.mp hvalue) h)
  | @constOfPrimitive x p h =>
    have hsame := p.admits_of_beq (Kind.accepts_const_iff.mp hvalue)
    exact Kind.accepts_primitive_iff.mpr (hsame.trans h)
  | @enumOfPrimitive type xs p h =>
    obtain ⟨x, hmem, hx⟩ := List.contains_iff_exists_mem_beq.mp (Kind.accepts_enum_iff.mp hvalue)
    have hadmits := List.all_eq_true.mp h x hmem
    exact Kind.accepts_primitive_iff.mpr ((p.admits_of_beq hx).trans hadmits)
  | primitive p => exact hvalue
  | integer =>
    exact Kind.accepts_primitive_iff.mpr
      (Primitive.admits_number_of_integer (Kind.accepts_primitive_iff.mp hvalue))
  | list => exact hvalue
  | listOf item =>
    obtain ⟨values, rfl, -⟩ := Kind.accepts_listOf_iff.mp hvalue
    exact .list
  | tuple items =>
    obtain ⟨values, rfl, -, -⟩ := Kind.accepts_tuple_iff.mp hvalue
    exact .list

end RpcSchema
