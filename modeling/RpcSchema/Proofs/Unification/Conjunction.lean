import RpcSchema.Proofs.Unification.NormalForm

/-!
# Intersections accept what all their operands accept

An intersection of schemas without compositions accepts every value that all of its operands
accept.  The converse holds when the schema of every property is declared under its name:
a closed object that meets one with patterns may take them over.

Four keywords decide together about a member of an object.  A property that stands on one
side only is dropped when the other side is closed; no value with such a member is accepted
by that other side, nor by the intersection, which is closed then as well.

## Main definitions

* `Kind.declaresAll` — the shapes of objects that declare all properties.
* `ObjectSchema.Tightens` — one object shape asks no less than another.

## Main results

* `Intersection.Meets.accepts`, `Intersection.Meets.within` — the shape in which two shapes
  meet accepts what both accept, and nothing else.
* `combine_all_accepts` — the same for a list of schemas.
-/

namespace RpcSchema

/-! ### Classes of shapes -/

/-- Whether the schemas of all properties of an object stand under their names, and none
under a pattern or for undeclared properties. -/
def Kind.declaresAll : Kind → Bool
  | .object shape => shape.patterns.isEmpty && shape.additional.schema?.isNone
  | _ => true

/-- The schema itself is no intersection and no union. -/
def Schema.Uncomposed (schema : Schema) : Prop := schema.kind.isComposition = false

/-- The schema itself has no schemas of properties but of declared ones. -/
def Schema.DeclaresAll (schema : Schema) : Prop := schema.kind.declaresAll = true

/-- What is asked of an operand: names are apart, and it is no composition. -/
abbrev Schema.Operand (schema : Schema) : Prop := schema.NamesApart ∧ schema.Uncomposed

/-- An operand that declares all properties. -/
abbrev Schema.DeclaredOperand (schema : Schema) : Prop :=
  schema.NamesApart ∧ schema.Uncomposed ∧ schema.DeclaresAll

instance : DecidablePred Schema.Uncomposed := fun schema =>
  inferInstanceAs (Decidable (schema.kind.isComposition = false))

instance : DecidablePred Schema.DeclaresAll := fun schema =>
  inferInstanceAs (Decidable (schema.kind.declaresAll = true))

variable {ρ : Interpretation} {value : Json}

/-! ### Object shapes -/

namespace Intersection

variable {merge : Schema → Schema → Except Conflict Schema} {x y shape : ObjectSchema}
  {fields : Fields Json}

/-- What a merged map says under a name is said by one side, or by both. -/
theorem Meeting.accepts {leftClosed rightClosed : Bool} {left right result : Option Schema}
    {m : Schema} (h : Meeting merge leftClosed rightClosed left right result)
    (hresult : result = some m) (hleft : ∀ a, left = some a → a.Accepts ρ value)
    (hright : ∀ b, right = some b → b.Accepts ρ value)
    (hmerge : ∀ a b, left = some a → right = some b → merge a b = .ok m →
      a.Accepts ρ value → b.Accepts ρ value → m.Accepts ρ value) : m.Accepts ρ value := by
  cases h with
  | both hm =>
    obtain rfl := Option.some.inj hresult
    exact hmerge _ _ rfl rfl hm (hleft _ rfl) (hright _ rfl)
  | left _ =>
    obtain rfl := Option.some.inj hresult
    exact hleft _ rfl
  | right _ =>
    obtain rfl := Option.some.inj hresult
    exact hright _ rfl
  | leftDropped _ => cases hresult
  | rightDropped _ => cases hresult
  | neither => cases hresult

/-- A name that is under nothing in the merged shape is under nothing on both sides, or it
was dropped because of a closed side. -/
theorem ObjectsMeet.other_cases (h : ObjectsMeet merge x y shape) {name : String}
    (hother : shape.IsOther ρ name) :
    (x.IsOther ρ name ∧ y.IsOther ρ name) ∨
      (x.additional.isClosed = true ∧ x.IsOther ρ name) ∨
        (y.additional.isClosed = true ∧ y.IsOther ρ name) := by
  obtain ⟨hname, hpatterns⟩ := hother
  -- Patterns are never dropped, so what the merged shape has no pattern for has none on a side.
  have hkept : ∀ pattern, pattern ∈ Fields.keys x.patterns ∨ pattern ∈ Fields.keys y.patterns →
      pattern ∈ Fields.keys shape.patterns := by
    intro pattern hpattern
    by_contra hmissing
    have hmeeting := h.patterns.meeting pattern
    rw [Fields.get?_eq_none_iff.mpr hmissing] at hmeeting
    generalize ha : Fields.get? x.patterns pattern = a at hmeeting
    generalize hb : Fields.get? y.patterns pattern = b at hmeeting
    cases hmeeting with
    | leftDropped h => cases h
    | rightDropped h => cases h
    | neither =>
      rcases hpattern with hpattern | hpattern
      · exact Fields.get?_eq_none_iff.mp ha hpattern
      · exact Fields.get?_eq_none_iff.mp hb hpattern
  have hx : ∀ pattern ∈ Fields.keys x.patterns, ¬ρ.covers pattern name :=
    fun pattern hpattern => hpatterns pattern (hkept pattern (.inl hpattern))
  have hy : ∀ pattern ∈ Fields.keys y.patterns, ¬ρ.covers pattern name :=
    fun pattern hpattern => hpatterns pattern (hkept pattern (.inr hpattern))
  have hmeeting := h.properties.meeting name
  rw [Fields.get?_eq_none_iff.mpr hname] at hmeeting
  generalize ha : Fields.get? x.properties name = a at hmeeting
  generalize hb : Fields.get? y.properties name = b at hmeeting
  cases hmeeting with
  | leftDropped hclosed => exact .inr (.inr ⟨hclosed, Fields.get?_eq_none_iff.mp hb, hy⟩)
  | rightDropped hclosed => exact .inr (.inl ⟨hclosed, Fields.get?_eq_none_iff.mp ha, hx⟩)
  | neither =>
    exact .inl ⟨⟨Fields.get?_eq_none_iff.mp ha, hx⟩, Fields.get?_eq_none_iff.mp hb, hy⟩

/-- **The shape in which two object shapes meet admits what both admit.** -/
theorem ObjectsMeet.admits (h : ObjectsMeet merge x y shape) (hx : x.Admits ρ fields)
    (hy : y.Admits ρ fields)
    (hmerge : ∀ a b m, a ∈ x.parts → b ∈ y.parts → merge a b = .ok m → ∀ name value,
      Fields.get? fields name = some value → a.Accepts ρ value → b.Accepts ρ value →
        m.Accepts ρ value) : shape.Admits ρ fields := by
  -- A name that one closed side has under nothing is not there.
  have hother : ∀ name ∈ Fields.keys fields, shape.IsOther ρ name →
      x.IsOther ρ name ∧ y.IsOther ρ name := by
    intro name hname hfree
    rcases h.other_cases hfree with hboth | ⟨hclosed, hfree⟩ | ⟨hclosed, hfree⟩
    · exact hboth
    · exact absurd hfree (hx.closed (Additional.isClosed_iff.mp hclosed) name hname)
    · exact absurd hfree (hy.closed (Additional.isClosed_iff.mp hclosed) name hname)
  constructor
  · exact fun name hname => ((h.required name).mp hname).elim (hx.required name) (hy.required name)
  · intro name m value hm hvalue
    refine (h.properties.meeting name).accepts hm (fun a ha => hx.properties name a value ha hvalue)
      (fun b hb => hy.properties name b value hb hvalue) fun a b ha hb hab => ?_
    exact hmerge a b m (ObjectSchema.mem_parts_of_property (Fields.mem_of_get? ha))
      (ObjectSchema.mem_parts_of_property (Fields.mem_of_get? hb)) hab name value hvalue
  · intro pattern m name value hm hcovers hvalue
    refine (h.patterns.meeting pattern).accepts hm
      (fun a ha => hx.patterns pattern a name value ha hcovers hvalue)
      (fun b hb => hy.patterns pattern b name value hb hcovers hvalue) fun a b ha hb hab => ?_
    exact hmerge a b m (ObjectSchema.mem_parts_of_pattern (Fields.mem_of_get? ha))
      (ObjectSchema.mem_parts_of_pattern (Fields.mem_of_get? hb)) hab name value hvalue
  · intro hclosed name hname hfree
    obtain ⟨hfreex, hfreey⟩ := hother name hname hfree
    have hsides := h.closed
    rw [Additional.isClosed_iff.mpr hclosed, eq_comm, Bool.or_eq_true] at hsides
    rcases hsides with hside | hside
    · exact hx.closed (Additional.isClosed_iff.mp hside) name hname hfreex
    · exact hy.closed (Additional.isClosed_iff.mp hside) name hname hfreey
  · intro m hm name value hfree hvalue
    have hname := Fields.mem_keys_of_mem (Fields.mem_of_get? hvalue)
    obtain ⟨hfreex, hfreey⟩ := hother name hname hfree
    rcases h.additional m hm with ha | hb | ⟨a, b, ha, hb, hab⟩
    · exact hx.additional m ha name value hfreex hvalue
    · exact hy.additional m hb name value hfreey hvalue
    · exact hmerge a b m (ObjectSchema.mem_parts_of_additional ha)
        (ObjectSchema.mem_parts_of_additional hb) hab name value hvalue
        (hx.additional a ha name value hfreex hvalue) (hy.additional b hb name value hfreey hvalue)
  · exact fun name hname => (h.names name).mpr ⟨hx.names name hname, hy.names name hname⟩

end Intersection

/-- The shape on the left asks no less than that on the right: it requires the same names,
keeps the declared properties unless it forbids them, and is closed and limited where the
other is. -/
structure ObjectSchema.Tightens (ρ : Interpretation) (fields : Fields Json)
    (shape x : ObjectSchema) : Prop where
  required : x.required ⊆ shape.required
  properties : ∀ name a, Fields.get? x.properties name = some a →
    (∃ m, Fields.get? shape.properties name = some m ∧ ∀ value,
      Fields.get? fields name = some value → m.Accepts ρ value → a.Accepts ρ value) ∨
      (name ∉ Fields.keys shape.properties ∧ shape.additional.isClosed = true)
  closed : x.additional.isClosed = true → shape.additional.isClosed = true ∧
    Fields.keys shape.properties ⊆ Fields.keys x.properties
  names : ∀ name, shape.AllowsName name → x.AllowsName name

/-- Where all properties are declared, what a shape admits is admitted by every shape that
asks no more. -/
theorem ObjectSchema.Tightens.admits {shape x : ObjectSchema} {fields : Fields Json}
    (h : shape.Tightens ρ fields x) (hshape : (Kind.object shape).declaresAll = true)
    (hx : (Kind.object x).declaresAll = true) (hadmits : shape.Admits ρ fields) :
    x.Admits ρ fields := by
  rw [Kind.declaresAll, Bool.and_eq_true, List.isEmpty_iff, Option.isNone_iff_eq_none] at hshape hx
  have hforbidden : shape.additional.isClosed = true → ∀ name ∈ Fields.keys fields,
      name ∈ Fields.keys shape.properties := by
    intro hclosed name hname
    by_contra hfree
    refine hadmits.closed (Additional.isClosed_iff.mp hclosed) name hname ⟨hfree, ?_⟩
    rw [hshape.1]
    exact List.forall_mem_nil _
  constructor
  · exact fun name hname => hadmits.required name (h.required hname)
  · intro name a value ha hvalue
    have hname := Fields.mem_keys_of_mem (Fields.mem_of_get? hvalue)
    rcases h.properties name a ha with ⟨m, hm, himp⟩ | ⟨hdropped, hclosed⟩
    · exact himp value hvalue (hadmits.properties name m value hm hvalue)
    · exact absurd (hforbidden hclosed name hname) hdropped
  · intro pattern a name value ha
    rw [hx.1] at ha
    cases ha
  · intro hclosed name hname hfree
    obtain ⟨hshut, hsubset⟩ := h.closed (Additional.isClosed_iff.mpr hclosed)
    exact hfree.1 (hsubset (hforbidden hshut name hname))
  · intro a ha
    rw [ha] at hx
    cases hx.2
  · exact fun name hname => h.names name (hadmits.names name hname)

namespace Intersection

variable {merge : Schema → Schema → Except Conflict Schema} {x y shape : ObjectSchema}
  {fields : Fields Json}

/-- **The shape in which two object shapes meet asks no less than the left one.** -/
theorem ObjectsMeet.tightens (h : ObjectsMeet merge x y shape)
    (hmerge : ∀ a b m, a ∈ x.parts → b ∈ y.parts → merge a b = .ok m → ∀ name value,
      Fields.get? fields name = some value → m.Accepts ρ value → a.Accepts ρ value) :
    shape.Tightens ρ fields x := by
  constructor
  · exact fun name hname => (h.required name).mpr (.inl hname)
  · intro name a ha
    have hmeeting := h.properties.meeting name
    rw [ha] at hmeeting
    rcases hmeeting.of_left with hm | ⟨b, m, hb, hm, hab⟩ | ⟨hm, hclosed⟩
    · exact .inl ⟨a, hm, fun _ _ haccepts => haccepts⟩
    · exact .inl ⟨m, hm, hmerge a b m (ObjectSchema.mem_parts_of_property (Fields.mem_of_get? ha))
        (ObjectSchema.mem_parts_of_property (Fields.mem_of_get? hb)) hab name⟩
    · exact .inr ⟨Fields.get?_eq_none_iff.mp hm, by rw [h.closed, hclosed, Bool.or_true]⟩
  · intro hclosed
    refine ⟨by rw [h.closed, hclosed, Bool.true_or], fun name hname => ?_⟩
    by_contra hfree
    have hmeeting := h.properties.meeting name
    rw [Fields.get?_eq_none_iff.mpr hfree, hclosed] at hmeeting
    exact Fields.get?_eq_none_iff.mp hmeeting.eq_none_of_closed hname
  · exact fun name hname => ((h.names name).mp hname).1

/-! ### Two shapes -/

section Shapes

variable {k l kind : Kind} (h : Meets merge k l kind)
  (hk : ∀ fields ∈ k.maps, (Fields.keys fields).Nodup)
  (hl : ∀ fields ∈ l.maps, (Fields.keys fields).Nodup)
include h hk hl

/-- **The shape in which two shapes meet accepts what both accept.** -/
theorem Meets.accepts
    (hmerge : ∀ a b m, a ∈ k.parts → b ∈ l.parts → merge a b = .ok m → ∀ value : Json,
      value.DistinctNames → a.Accepts ρ value → b.Accepts ρ value → m.Accepts ρ value)
    (hvalue : value.DistinctNames) (hleft : k.Accepts ρ value) (hright : l.Accepts ρ value) :
    kind.Accepts ρ value := by
  cases h with
  | left _ => exact hleft
  | right _ => exact hright
  | enums p q xs ys =>
    exact Kind.accepts_enum_iff.mpr ((Json.contains_filter_contains hvalue).mpr
      ⟨Kind.accepts_enum_iff.mp hleft, Kind.accepts_enum_iff.mp hright⟩)
  | @objects x y shape hshape =>
    obtain ⟨fields, rfl, hx⟩ := Kind.accepts_object_iff.mp hleft
    obtain ⟨_, heq, hy⟩ := Kind.accepts_object_iff.mp hright
    obtain rfl := Json.object.inj heq
    have hvalues := (Json.everyObject_object_iff.mp hvalue).2
    exact Kind.accepts_object_iff.mpr ⟨fields, rfl, (objects_spec hk hl hshape).admits hx hy
      fun a b m ha hb hab name part hpart =>
        hmerge a b m ha hb hab part (hvalues name part (Fields.mem_of_get? hpart))⟩
  | @items x y item hitem =>
    obtain ⟨values, rfl, hx⟩ := Kind.accepts_listOf_iff.mp hleft
    obtain ⟨_, heq, hy⟩ := Kind.accepts_listOf_iff.mp hright
    obtain rfl := Json.array.inj heq
    have hvalues := Json.everyObject_array_iff.mp hvalue
    exact Kind.accepts_listOf_iff.mpr ⟨values, rfl, fun element hmem =>
      hmerge x y item (List.mem_singleton_self _) (List.mem_singleton_self _) hitem element
        (hvalues element hmem) (hx element hmem) (hy element hmem)⟩

/-- **The shape in which two shapes meet accepts nothing else**, when all properties are
declared. -/
theorem Meets.within (hkdeclared : k.declaresAll = true) (hldeclared : l.declaresAll = true)
    (hdeclared : kind.declaresAll = true)
    (hmerge : ∀ a b m, a ∈ k.parts → b ∈ l.parts → merge a b = .ok m → ∀ value : Json,
      value.DistinctNames → m.Accepts ρ value → a.Accepts ρ value ∧ b.Accepts ρ value)
    (hvalue : value.DistinctNames) (haccepts : kind.Accepts ρ value) :
    k.Accepts ρ value ∧ l.Accepts ρ value := by
  cases h with
  | left hnarrower => exact ⟨haccepts, hnarrower.within value haccepts⟩
  | right hnarrower => exact ⟨hnarrower.within value haccepts, haccepts⟩
  | enums p q xs ys =>
    obtain ⟨hx, hy⟩ := (Json.contains_filter_contains hvalue).mp (Kind.accepts_enum_iff.mp haccepts)
    exact ⟨Kind.accepts_enum_iff.mpr hx, Kind.accepts_enum_iff.mpr hy⟩
  | @objects x y shape hshape =>
    obtain ⟨fields, rfl, hadmits⟩ := Kind.accepts_object_iff.mp haccepts
    have hspec := objects_spec hk hl hshape
    have hvalues := (Json.everyObject_object_iff.mp hvalue).2
    have hparts : ∀ a b m, a ∈ x.parts → b ∈ y.parts → merge a b = .ok m → ∀ name part,
        Fields.get? fields name = some part → m.Accepts ρ part →
          a.Accepts ρ part ∧ b.Accepts ρ part := fun a b m ha hb hab name part hpart =>
      hmerge a b m ha hb hab part (hvalues name part (Fields.mem_of_get? hpart))
    have hleft : shape.Tightens ρ fields x := hspec.tightens fun a b m ha hb hab name part hpart hm =>
      (hparts a b m ha hb hab name part hpart hm).1
    have hright : shape.Tightens ρ fields y :=
      hspec.symm.tightens fun b a m hb ha hab name part hpart hm =>
        (hparts a b m ha hb hab name part hpart hm).2
    exact ⟨Kind.accepts_object_iff.mpr ⟨fields, rfl, hleft.admits hdeclared hkdeclared hadmits⟩,
      Kind.accepts_object_iff.mpr ⟨fields, rfl, hright.admits hdeclared hldeclared hadmits⟩⟩
  | @items x y item hitem =>
    obtain ⟨values, rfl, hitems⟩ := Kind.accepts_listOf_iff.mp haccepts
    have hvalues := Json.everyObject_array_iff.mp hvalue
    have helements : ∀ element ∈ values, x.Accepts ρ element ∧ y.Accepts ρ element :=
      fun element hmem => hmerge x y item (List.mem_singleton_self _) (List.mem_singleton_self _)
        hitem element (hvalues element hmem) (hitems element hmem)
    exact ⟨Kind.accepts_listOf_iff.mpr ⟨values, rfl, fun element hmem => (helements element hmem).1⟩,
      Kind.accepts_listOf_iff.mpr ⟨values, rfl, fun element hmem => (helements element hmem).2⟩⟩

/-- No patterns come from shapes without patterns. -/
theorem Meets.declaresAll (hkdeclared : k.declaresAll = true) (hldeclared : l.declaresAll = true) :
    kind.declaresAll = true := by
  cases h with
  | left _ => exact hkdeclared
  | right _ => exact hldeclared
  | enums p q xs ys => rfl
  | @objects x y shape hshape =>
    have hspec := objects_spec hk hl hshape
    rw [Kind.declaresAll, Bool.and_eq_true, List.isEmpty_iff, Option.isNone_iff_eq_none]
      at hkdeclared hldeclared ⊢
    constructor
    · refine List.eq_nil_iff_forall_not_mem.mpr fun ⟨pattern, m⟩ hmem => ?_
      have hmeeting := hspec.patterns.meeting pattern
      rw [hkdeclared.1, hldeclared.1, Fields.get?_of_mem hspec.patterns.nodup hmem] at hmeeting
      cases hmeeting
    · cases hadditional : shape.additional with
      | schema m =>
        rcases hspec.additional m hadditional with hx | hy | ⟨a, b, hx, -, -⟩
        · rw [hx] at hkdeclared
          cases hkdeclared.2
        · rw [hy] at hldeclared
          cases hldeclared.2
        · rw [hx] at hkdeclared
          cases hkdeclared.2
      | _ => rfl
  | items _ => rfl

end Shapes

theorem Meets.isComposition {k l kind : Kind} (h : Meets merge k l kind) (hk : k.isComposition = false)
    (hl : l.isComposition = false) : kind.isComposition = false := by
  cases h with
  | left _ => exact hk
  | right _ => exact hl
  | enums p q xs ys => rfl
  | objects _ => rfl
  | items _ => rfl

/-- Intersections of schemas without compositions have none. -/
theorem closed_operand : Closed Schema.Operand :=
  Closed.namesApart_and (fun _ _ _ _ ha hb h _ _ => h.isComposition ha hb)
    fun a branches kept ha hkind _ _ => by
      rw [Schema.Uncomposed, hkind] at ha
      cases ha

/-- Intersections of schemas that declare all properties declare all properties. -/
theorem closed_declaredOperand : Closed Schema.DeclaredOperand :=
  Closed.namesApart_and
    (fun _ _ _ _ ha hb h hnames hnames' =>
      ⟨h.isComposition ha.1 hb.1, h.declaresAll hnames.maps hnames'.maps ha.2 hb.2⟩)
    fun a branches kept ha hkind _ _ => by
      have huncomposed := ha.1
      rw [Schema.Uncomposed, hkind] at huncomposed
      cases huncomposed

end Intersection

namespace Schema

open Intersection

variable {a b m : Schema} {depth : Nat}

/-- Without compositions the intersection of two schemas is the first one, equal to the
second, or both shapes meet. -/
theorem intersectWithin_cases (ha : a.Uncomposed) (hb : b.Uncomposed)
    (h : intersectWithin (depth + 1) a b = .ok m) :
    ((a == b) = true ∧ m = a) ∨ Meets (intersectWithin depth) a.kind b.kind m.kind := by
  rw [intersectWithin] at h
  split at h
  · next heq => exact .inl ⟨heq, (Except.ok.inj h).symm⟩
  · rcases combine_cases h with ⟨kind, hmeets, rfl⟩ | ⟨branches, hkind, -⟩ | ⟨branches, hkind, -⟩
    · exact .inr hmeets
    · rw [Uncomposed, hkind] at ha
      cases ha
    · rw [Uncomposed, hkind] at hb
      cases hb

/-- **The intersection of two schemas accepts what both accept.** -/
theorem intersectWithin_accepts (ha : a.Every Operand) (hb : b.Every Operand)
    (h : intersectWithin depth a b = .ok m) (hvalue : value.DistinctNames)
    (hleft : a.Accepts ρ value) (hright : b.Accepts ρ value) : m.Accepts ρ value := by
  induction depth generalizing a b m value with
  | zero => cases h
  | succ depth ih =>
    rcases intersectWithin_cases ha.own.2 hb.own.2 h with ⟨-, rfl⟩ | hmeets
    · exact hleft
    · exact hmeets.accepts ha.own.1.maps hb.own.1.maps
        (fun x y _ hx hy hxy _ => ih (ha.parts x hx) (hb.parts y hy) hxy) hvalue hleft hright

/-- **The intersection of two schemas accepts nothing else**, when all properties are
declared. -/
theorem accepts_of_intersectWithin (ha : a.Every DeclaredOperand) (hb : b.Every DeclaredOperand)
    (h : intersectWithin depth a b = .ok m) (hvalue : value.DistinctNames)
    (haccepts : m.Accepts ρ value) : a.Accepts ρ value ∧ b.Accepts ρ value := by
  induction depth generalizing a b m value with
  | zero => cases h
  | succ depth ih =>
    have hm := closed_declaredOperand.every_intersectWithin ha hb h
    rcases intersectWithin_cases ha.own.2.1 hb.own.2.1 h with ⟨heq, rfl⟩ | hmeets
    · exact ⟨haccepts, haccepts.of_beq (ha.mono fun _ h => h.1) heq⟩
    · exact hmeets.within ha.own.1.maps hb.own.1.maps ha.own.2.2 hb.own.2.2 hm.own.2.2
        (fun x y _ hx hy hxy _ => ih (ha.parts x hx) (hb.parts y hy) hxy) hvalue haccepts

/-! ### Lists of schemas -/

variable {schemas : List Schema}

theorem intersectAll_accepts (hne : schemas ≠ [])
    (hschemas : ∀ schema ∈ schemas, schema.Every Operand) (h : intersectAll schemas = .ok m)
    (hvalue : value.DistinctNames) (haccepts : ∀ schema ∈ schemas, schema.Accepts ρ value) :
    m.Accepts ρ value := by
  have hempty : (ofKind .empty).Every Operand :=
    .intro ⟨.ofKind rfl rfl, rfl⟩ (List.forall_mem_nil _)
  refine intersectAll_induction (motive := fun done m => (∀ schema ∈ done, schema.Every Operand) →
    (∀ schema ∈ done, schema.Accepts ρ value) → m.Accepts ρ value) ?_ ?_ hne h hschemas haccepts
  · exact fun schema _ haccepts => haccepts schema (List.mem_singleton_self _)
  · intro done a b m ha ih hmerged hall haccepts
    obtain ⟨hdone, hb⟩ := List.forall_mem_append.mp hall
    obtain ⟨haccepted, hright⟩ := List.forall_mem_append.mp haccepts
    exact intersectWithin_accepts (closed_operand.every_intersectAll hempty hdone ha)
      (hb b (List.mem_singleton_self _)) hmerged hvalue (ih hdone haccepted)
        (hright b (List.mem_singleton_self _))

theorem accepts_of_intersectAll (hne : schemas ≠ [])
    (hschemas : ∀ schema ∈ schemas, schema.Every DeclaredOperand)
    (h : intersectAll schemas = .ok m) (hvalue : value.DistinctNames)
    (haccepts : m.Accepts ρ value) : ∀ schema ∈ schemas, schema.Accepts ρ value := by
  have hempty : (ofKind .empty).Every DeclaredOperand :=
    .intro ⟨.ofKind rfl rfl, rfl, rfl⟩ (List.forall_mem_nil _)
  refine intersectAll_induction (motive := fun done m =>
    (∀ schema ∈ done, schema.Every DeclaredOperand) → m.Accepts ρ value →
      ∀ schema ∈ done, schema.Accepts ρ value) ?_ ?_ hne h hschemas haccepts
  · exact fun schema _ haccepts => List.forall_mem_singleton.mpr haccepts
  · intro done a b m ha ih hmerged hall haccepts
    obtain ⟨hdone, hb⟩ := List.forall_mem_append.mp hall
    obtain ⟨hleft, hright⟩ := accepts_of_intersectWithin
      (closed_declaredOperand.every_intersectAll hempty hdone ha)
      (hb b (List.mem_singleton_self _)) hmerged hvalue haccepts
    exact List.forall_mem_append.mpr ⟨ih hdone hleft, List.forall_mem_singleton.mpr hright⟩

/-- A schema without compositions is unified as it stands. -/
theorem Uncomposed.unified {schema : Schema} (h : schema.Uncomposed) (preserveUnions : Bool) :
    schema.Unified preserveUnions := by
  obtain ⟨title, description, kind, extra⟩ := schema
  cases kind with
  | allOf parts => cases h
  | anyOf branches => cases h
  | _ => exact trivial

end Schema

/-- **The intersection of a list of schemas accepts what all of them accept**, and nothing
else if all properties of their objects are declared. -/
theorem combine_all_accepts (ρ : Interpretation) {preserveUnions : Bool} {schemas : List Schema}
    {merged : Schema} {registry registry' : Registry} (hne : schemas ≠ [])
    (hnames : ∀ schema ∈ schemas, schema.DistinctNames)
    (huncomposed : ∀ schema ∈ schemas, schema.Every Schema.Uncomposed)
    (h : (combine preserveUnions .all schemas).run.run registry = (.ok merged, registry')) :
    (∀ value : Json, value.DistinctNames → (∀ schema ∈ schemas, schema.Accepts ρ value) →
      merged.Accepts ρ value) ∧
    ((∀ schema ∈ schemas, schema.Every Schema.DeclaresAll) → ∀ value : Json, value.DistinctNames →
      merged.Accepts ρ value → ∀ schema ∈ schemas, schema.Accepts ρ value) := by
  have hunify : Schema.unifyItems preserveUnions schemas = pure schemas :=
    Schema.unifyItems_eq_pure fun schema hmem => Schema.unify_eq_pure (hnames schema hmem)
      ((huncomposed schema hmem).mono fun _ h => h.unified preserveUnions)
  rw [combine, hunify, pure_bind] at h
  have hmerged : Schema.intersectAll schemas = .ok merged := (Prod.mk.inj h).1
  constructor
  · intro value hvalue
    exact Schema.intersectAll_accepts hne
      (fun schema hmem => (hnames schema hmem).and (huncomposed schema hmem)) hmerged hvalue
  · intro hdeclared value hvalue
    exact Schema.accepts_of_intersectAll hne (fun schema hmem => (hnames schema hmem).and
      ((huncomposed schema hmem).and (hdeclared schema hmem))) hmerged hvalue

/-- A closed object meets another: the note of one side is dropped, and what is left of the
number is an integer. -/
theorem combine_all_accepts_entry :
    let entry : Schema := .ofKind (.object ⟨[("id", .ofKind (.primitive .number)),
      ("note", .ofKind (.primitive .string))], ["id"], .unstated, [], none⟩)
    let key : Schema := .ofKind (.object ⟨[("id", .ofKind (.primitive .integer))], [],
      .allowed false, [], none⟩)
    let merged : Schema := .ofKind (.object ⟨[("id", .ofKind (.primitive .integer))], ["id"],
      .allowed false, [], none⟩)
    (combine false .all [entry, key]).run.run ⟨[], []⟩ = (.ok merged, ⟨[], []⟩) ∧
      ∀ (ρ : Interpretation) (value : Json), value.DistinctNames →
        (merged.Accepts ρ value ↔ entry.Accepts ρ value ∧ key.Accepts ρ value) := by
  intro entry key merged
  have hrun : (combine false .all [entry, key]).run.run ⟨[], []⟩ = (.ok merged, ⟨[], []⟩) := by rfl
  refine ⟨hrun, fun ρ value hvalue => ?_⟩
  obtain ⟨haccepts, hback⟩ := combine_all_accepts ρ (List.cons_ne_nil _ _) (by decide)
    (by decide) hrun
  constructor
  · intro hmerged
    have hall := hback (by decide) value hvalue hmerged
    exact ⟨hall entry (List.mem_cons_self ..),
      hall key (List.mem_cons_of_mem _ (List.mem_singleton_self _))⟩
  · rintro ⟨hentry, hkey⟩
    exact haccepts value hvalue
      (List.forall_mem_cons.mpr ⟨hentry, List.forall_mem_singleton.mpr hkey⟩)

end RpcSchema
