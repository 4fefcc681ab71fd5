import RpcSchema.Proofs.Outcome
import RpcSchema.Proofs.Unification.Conjunction
import RpcSchema.Proofs.Unification.Depth

/-!
# What a conflict leaves open

Two schemas without compositions are in conflict when there is no intersection of them.  Mostly
they have no value in common then: their types, or the values that they spell out, exclude each
other.  But an intersection is also refused where it cannot be told, or not be said, what both
accept.

* Of a reference it is not known what it accepts.
* A value that is spelled out, perhaps beside others, may be of the type or form that is asked for.
* Tuples meet no other items, and items that are in conflict leave the empty array.
* What is in conflict under a property leaves the objects that do not have it.

These are all such cases.  Where none of them is met, schemas in conflict have no value in common.
The proof goes by what the value is: a shape that accepts it is a reference, accepts anything,
spells the value out, or has its type or form, and of two shapes of the last kind both are of the
same one.

## Main definitions

* `Schema.Conflicts` — there is no intersection.
* `Kind.Unsettled` — the shapes of two schemas in conflict that may have values in common.
* `Schema.Disputes` — a conflict that does not rule out common values.
* `Intersection.Counterparts` — schemas in the same place of two object shapes.

## Main results

* `Intersection.objects_eq_error` — where two object shapes are in conflict.
* `Kind.oneForm_of_hasFormOf` — shapes that one value has the form of.
* `Schema.unsettled_of_conflicts` — schemas in conflict that have a common value.
-/

namespace RpcSchema

/-- There is no intersection of the schemas. -/
def Schema.Conflicts (a b : Schema) : Prop := ∃ conflict, a.intersect b = .error conflict

/-- Whether a value has the type, or the outer form, that a shape asks for. -/
def Kind.hasFormOf : Kind → Json → Bool
  | .primitive type, value => type.admits value
  | .object _, .object _ => true
  | .list, .array _ => true
  | .listOf _, .array _ => true
  | .tuple _, .array _ => true
  | _, _ => false

/-- The shapes of schemas that may have values in common though they are in conflict. -/
inductive Kind.Unsettled : Kind → Kind → Prop
  | refLeft (reference : String) (l : Kind) : Unsettled (.ref reference) l
  | refRight (k : Kind) (reference : String) : Unsettled k (.ref reference)
  /-- A value spelled out by the left shape is of the type or form of the right one. -/
  | literalLeft {k l : Kind} {value : Json} (hmem : value ∈ k.literals)
      (hform : l.hasFormOf value = true) : Unsettled k l
  | literalRight {k l : Kind} {value : Json} (hmem : value ∈ l.literals)
      (hform : k.hasFormOf value = true) : Unsettled k l
  | tuples (xs ys : List Schema) : Unsettled (.tuple xs) (.tuple ys)
  | tupleLeft (xs : List Schema) (y : Schema) : Unsettled (.tuple xs) (.listOf y)
  | tupleRight (x : Schema) (ys : List Schema) : Unsettled (.listOf x) (.tuple ys)
  /-- Of the items in conflict there may be none. -/
  | items {x y : Schema} (h : x.Conflicts y) : Unsettled (.listOf x) (.listOf y)
  /-- The property need not be there. -/
  | property {x y : ObjectSchema} {name : String} {a b : Schema}
      (hx : Fields.get? x.properties name = some a) (hy : Fields.get? y.properties name = some b)
      (hoptional : name ∉ x.required ∧ name ∉ y.required) (h : a.Conflicts b) :
      Unsettled (.object x) (.object y)
  /-- The property is there, but what is under it is unsettled as well. -/
  | required {x y : ObjectSchema} {name : String} {a b : Schema}
      (hx : Fields.get? x.properties name = some a) (hy : Fields.get? y.properties name = some b)
      (h : a.Conflicts b) (hunsettled : Unsettled a.kind b.kind) :
      Unsettled (.object x) (.object y)
  /-- There may be no undeclared property. -/
  | additional {x y : ObjectSchema} {a b : Schema} (hx : x.additional = .schema a)
      (hy : y.additional = .schema b) (h : a.Conflicts b) : Unsettled (.object x) (.object y)
  /-- No property may match the pattern. -/
  | pattern {x y : ObjectSchema} {pattern : String} {a b : Schema}
      (hx : Fields.get? x.patterns pattern = some a) (hy : Fields.get? y.patterns pattern = some b)
      (h : a.Conflicts b) : Unsettled (.object x) (.object y)

/-- The schemas are in conflict, which does not rule out common values. -/
def Schema.Disputes (a b : Schema) : Prop := a.Conflicts b ∧ a.kind.Unsettled b.kind

/-! ### Types and forms -/

section Forms

variable {ρ : Interpretation} {k l : Kind} {value other : Json}

/-- Equal values have the same types and forms. -/
theorem Kind.hasFormOf_of_beq (h : (value == other) = true) :
    k.hasFormOf value = k.hasFormOf other := by
  cases k with
  | primitive type => exact type.admits_of_beq h
  | _ =>
    rw [Json.beq_iff_sameParts] at h
    cases h <;> rfl

/-- **Why a shape accepts a value**: it is a reference, accepts anything, spells the value out, or
asks for its type or form and perhaps for more. -/
theorem Kind.Accepts.cases_form (huncomposed : k.isComposition = false) (h : k.Accepts ρ value) :
    (∃ reference, k = .ref reference) ∨ k = .empty ∨ k.isLiteral = true ∨
      k.hasFormOf value = true := by
  cases h with
  | ref _ => exact .inl ⟨_, rfl⟩
  | empty => exact .inr (.inl rfl)
  | const _ => exact .inr (.inr (.inl rfl))
  | enum _ => exact .inr (.inr (.inl rfl))
  | primitive h => exact .inr (.inr (.inr h))
  | object _ _ _ _ _ _ => exact .inr (.inr (.inr rfl))
  | list => exact .inr (.inr (.inr rfl))
  | listOf _ => exact .inr (.inr (.inr rfl))
  | tuple _ _ => exact .inr (.inr (.inr rfl))
  | allOf _ => cases huncomposed
  | anyOf _ _ _ => cases huncomposed

/-- The family of a type is decided by any value that it admits. -/
theorem Primitive.family_of_admits {type : Primitive} (h : type.admits value = true) :
    some type.family = (Primitive.ofValue? value).map Primitive.family := by
  cases value with
  | number n => cases n <;> cases type <;> first | rfl | cases h
  | _ => cases type <;> first | rfl | cases h

/-- Types that admit a common value meet. -/
theorem Primitive.exists_meet? {p q : Primitive} (hp : p.admits value = true)
    (hq : q.admits value = true) : ∃ type, p.meet? q = some type := by
  have hmeet : ∀ p q : Primitive, p.family = q.family → (p.meet? q).isSome = true := by
    intro p q
    cases p <;> cases q <;> decide
  apply Option.isSome_iff_exists.mp
  apply hmeet
  apply Option.some.inj
  rw [Primitive.family_of_admits hp, Primitive.family_of_admits hq]

/-- Whether the shape is an array. -/
def Kind.isArray : Kind → Bool
  | .list | .listOf _ | .tuple _ => true
  | _ => false

/-- Two types that meet, two objects, or two arrays. -/
inductive Kind.OneForm : Kind → Kind → Prop
  | primitives {p q type : Primitive} (h : p.meet? q = some type) :
      OneForm (.primitive p) (.primitive q)
  | objects (x y : ObjectSchema) : OneForm (.object x) (.object y)
  | arrays {k l : Kind} (hk : k.isArray = true) (hl : l.isArray = true) : OneForm k l

theorem Kind.hasFormOf_cases (h : k.hasFormOf value = true) :
    (∃ type, k = .primitive type ∧ type.admits value = true) ∨
      (∃ shape fields, k = .object shape ∧ value = .object fields) ∨
        (k.isArray = true ∧ ∃ items, value = .array items) := by
  unfold Kind.hasFormOf at h
  split at h
  · exact .inl ⟨_, rfl, h⟩
  · exact .inr (.inl ⟨_, _, rfl, rfl⟩)
  · exact .inr (.inr ⟨rfl, _, rfl⟩)
  · exact .inr (.inr ⟨rfl, _, rfl⟩)
  · exact .inr (.inr ⟨rfl, _, rfl⟩)
  · cases h

/-- **What one value has the form of has one form.** -/
theorem Kind.oneForm_of_hasFormOf (hk : k.hasFormOf value = true) (hl : l.hasFormOf value = true) :
    k.OneForm l := by
  have hobject : ∀ (type : Primitive) (fields : Fields Json),
      type.admits (.object fields) ≠ true := by
    intro type fields
    cases type <;> exact Bool.false_ne_true
  have harray : ∀ (type : Primitive) (items : List Json), type.admits (.array items) ≠ true := by
    intro type items
    cases type <;> exact Bool.false_ne_true
  rcases hasFormOf_cases hk with ⟨p, rfl, hp⟩ | ⟨x, fields, rfl, rfl⟩ | ⟨harrayk, items, rfl⟩
  · rcases hasFormOf_cases hl with ⟨q, rfl, hq⟩ | ⟨y, fields, rfl, rfl⟩ | ⟨-, items, rfl⟩
    · obtain ⟨type, htype⟩ := Primitive.exists_meet? hp hq
      exact .primitives htype
    · exact absurd hp (hobject p fields)
    · exact absurd hp (harray p items)
  · rcases hasFormOf_cases hl with ⟨q, rfl, hq⟩ | ⟨y, _, rfl, -⟩ | ⟨-, items, hvalue⟩
    · exact absurd hq (hobject q fields)
    · exact .objects x y
    · cases hvalue
  · rcases hasFormOf_cases hl with ⟨q, rfl, hq⟩ | ⟨y, fields, -, hvalue⟩ | ⟨harrayl, -⟩
    · exact absurd hq (harray q items)
    · cases hvalue
    · exact .arrays harrayk harrayl

end Forms

/-! ### Conflicts in objects -/

namespace Intersection

variable {merge : Schema → Schema → Except Conflict Schema} {conflict : Conflict}

theorem properties_eq_error {leftClosed rightClosed : Bool} {left right : Fields Schema}
    (hleft : (Fields.keys left).Nodup)
    (h : properties merge leftClosed rightClosed left right = .error conflict) :
    ∃ name a b, Fields.get? left name = some a ∧ Fields.get? right name = some b ∧
      merge a b = .error conflict := by
  induction left generalizing right with
  | nil =>
    rw [properties] at h
    cases h
  | cons entry left ih =>
    obtain ⟨name, a⟩ := entry
    obtain ⟨(hname : name ∉ Fields.keys left), hleft⟩ := List.nodup_cons.mp hleft
    -- What is in conflict further on is under another name.
    have hother : ∀ {other : String} {a' : Schema}, Fields.get? left other = some a' →
        name ≠ other := by
      rintro other a' ha' rfl
      exact hname (Fields.mem_keys_of_mem (Fields.mem_of_get? ha'))
    rw [properties, Fields.extract?_eq] at h
    cases hb : Fields.get? right name with
    | some b =>
      simp only [hb, Option.map_some] at h
      rcases bind_eq_error_iff.mp h with hm | ⟨m, -, h⟩
      · exact ⟨name, a, b, if_pos rfl, hb, hm⟩
      rcases bind_eq_error_iff.mp h with hrest | ⟨rest, -, h⟩
      · obtain ⟨other, a', b', ha', hb', hm⟩ := ih hleft hrest
        have hne := hother ha'
        refine ⟨other, a', b', ?_, ?_, hm⟩
        · rwa [Fields.get?_cons, if_neg hne]
        · rwa [Fields.get?_erase_of_ne _ (Ne.symm hne)] at hb'
      · cases h
    | none =>
      simp only [hb, Option.map_none] at h
      rcases bind_eq_error_iff.mp h with hrest | ⟨rest, -, h⟩
      · obtain ⟨other, a', b', ha', hb', hm⟩ := ih hleft hrest
        refine ⟨other, a', b', ?_, hb', hm⟩
        rwa [Fields.get?_cons, if_neg (hother ha')]
      · cases h

theorem additional_eq_error {x y : Additional} (h : additional merge x y = .error conflict) :
    ∃ a b, x = .schema a ∧ y = .schema b ∧ merge a b = .error conflict := by
  unfold additional at h
  split at h
  · cases h
  · cases h
  · cases h
  · next a b => exact ⟨a, b, rfl, rfl, map_eq_error_iff.mp h⟩
  · cases h
  · cases h

theorem mergePatterns_eq_error {left right : Fields Schema} (hright : (Fields.keys right).Nodup)
    (h : mergePatterns merge left right = .error conflict) :
    ∃ pattern a b, Fields.get? left pattern = some a ∧ Fields.get? right pattern = some b ∧
      merge a b = .error conflict := by
  induction right generalizing left with
  | nil =>
    rw [mergePatterns] at h
    cases h
  | cons entry right ih =>
    obtain ⟨pattern, b⟩ := entry
    obtain ⟨(hpattern : pattern ∉ Fields.keys right), hright⟩ := List.nodup_cons.mp hright
    -- The pattern goes to the end of the left side, but the rest of the right has none of its name.
    have hmoved : ∀ (others : Fields Schema) (m : Schema),
        (∀ other ≠ pattern, Fields.get? others other = Fields.get? left other) →
        mergePatterns merge (others ++ [(pattern, m)]) right = .error conflict →
        ∃ other a' b', Fields.get? left other = some a' ∧
          Fields.get? ((pattern, b) :: right) other = some b' ∧ merge a' b' = .error conflict := by
      intro others m hsame hrest
      obtain ⟨other, a', b', ha', hb', hm⟩ := ih hright hrest
      have hne : pattern ≠ other := by
        rintro rfl
        exact hpattern (Fields.mem_keys_of_mem (Fields.mem_of_get? hb'))
      rw [Fields.get?_append, Fields.get?_cons, if_neg hne, Fields.get?_nil, Option.or_none,
        hsame other (Ne.symm hne)] at ha'
      refine ⟨other, a', b', ha', ?_, hm⟩
      rwa [Fields.get?_cons, if_neg hne]
    rw [mergePatterns, Fields.extract?_eq] at h
    cases ha : Fields.get? left pattern with
    | some a =>
      simp only [ha, Option.map_some] at h
      rcases bind_eq_error_iff.mp h with hm | ⟨m, -, hrest⟩
      · exact ⟨pattern, a, b, ha, if_pos rfl, hm⟩
      · exact hmoved _ m (fun other hother => Fields.get?_erase_of_ne _ hother) hrest
    | none =>
      simp only [ha, Option.map_none] at h
      exact hmoved left b (fun _ _ => rfl) h

/-- The schemas stand in the same place in two object shapes: under a property or a pattern that
both have, or for undeclared properties. -/
inductive Counterparts (x y : ObjectSchema) (a b : Schema) : Prop
  | property {name : String} (ha : Fields.get? x.properties name = some a)
      (hb : Fields.get? y.properties name = some b)
  | additional (ha : x.additional = .schema a) (hb : y.additional = .schema b)
  | pattern {pattern : String} (ha : Fields.get? x.patterns pattern = some a)
      (hb : Fields.get? y.patterns pattern = some b)

/-- **Where two object shapes are in conflict.** -/
theorem objects_eq_error {x y : ObjectSchema} (hx : (Fields.keys x.properties).Nodup)
    (hy : (Fields.keys y.patterns).Nodup) (h : objects merge x y = .error conflict) :
    ∃ a b, Counterparts x y a b ∧ merge a b = .error conflict := by
  rw [objects] at h
  rcases bind_eq_error_iff.mp h with hproperties | ⟨properties, -, h⟩
  · obtain ⟨name, a, b, ha, hb, hab⟩ := properties_eq_error hx hproperties
    exact ⟨a, b, .property ha hb, hab⟩
  rcases bind_eq_error_iff.mp h with hadditional | ⟨additional, -, h⟩
  · obtain ⟨a, b, ha, hb, hab⟩ := additional_eq_error hadditional
    exact ⟨a, b, .additional ha hb, hab⟩
  rcases bind_eq_error_iff.mp h with hpatterns | ⟨patterns, -, h⟩
  · obtain ⟨pattern, a, b, ha, hb, hab⟩ := mergePatterns_eq_error hy hpatterns
    exact ⟨a, b, .pattern ha hb, hab⟩
  · cases h

end Intersection

/-! ### Conflicts and common values -/

namespace Intersection

variable {ρ : Interpretation} {a b : Schema} {conflict : Conflict} {value : Json}
  {merge : Schema → Schema → Except Conflict Schema}

/-- A schema that accepts anything is in conflict with none. -/
theorem combine_empty (h : a.kind = .empty ∨ b.kind = .empty) :
    ∃ m, combine merge a b = .ok m := by
  obtain ⟨title, description, k, extra⟩ := a
  obtain ⟨title', description', l, extra'⟩ := b
  rcases h with h | h
  · obtain rfl : k = .empty := h
    cases l <;> exact ⟨_, rfl⟩
  · obtain rfl : l = .empty := h
    cases k <;> exact ⟨_, rfl⟩

/-- Shapes that spell a common value out are not in conflict. -/
theorem combine_literals (ha : ∀ x ∈ a.kind.literals, x.DistinctNames)
    (hk : a.kind.isLiteral = true) (hl : b.kind.isLiteral = true) (hvalue : value.DistinctNames)
    (hleft : a.Accepts ρ value) (hright : b.Accepts ρ value) :
    ∃ m, combine merge a b = .ok m := by
  obtain ⟨title, description, k, extra⟩ := a
  obtain ⟨title', description', l, extra'⟩ := b
  simp only [Schema.Accepts] at hleft hright
  cases k with
  | const x =>
    have hx := Kind.accepts_const_iff.mp hleft
    cases l with
    | const y =>
      have hxy := Json.beq_trans (Json.beq_symm hvalue hx) (Kind.accepts_const_iff.mp hright)
      simp only [combine, if_pos hxy]
      exact ⟨_, rfl⟩
    | enum type ys =>
      have hys := Json.contains_of_beq (Json.beq_symm hvalue hx) (Kind.accepts_enum_iff.mp hright)
      simp only [combine, if_pos hys]
      exact ⟨_, rfl⟩
    | _ => cases hl
  | enum type xs =>
    have hxs := Kind.accepts_enum_iff.mp hleft
    cases l with
    | const y =>
      have hy := Json.beq_symm hvalue (Kind.accepts_const_iff.mp hright)
      simp only [combine, if_pos (Json.contains_of_beq hy hxs)]
      exact ⟨_, rfl⟩
    | enum type' ys =>
      have hcommon := (Json.contains_filter_contains hvalue).mpr
        ⟨hxs, Kind.accepts_enum_iff.mp hright⟩
      have hsome : (xs.filter ys.contains).isEmpty = false := by
        apply Bool.eq_false_iff.mpr
        intro hempty
        rw [List.isEmpty_iff.mp hempty] at hcommon
        cases hcommon
      simp only [combine, hsome, if_neg Bool.false_ne_true]
      exact ⟨_, rfl⟩
    | _ => cases hl
  | _ => cases hk

/-- **Shapes of one form in conflict**: types that meet are not, so both are objects or arrays. -/
theorem unsettled_of_oneForm (ha : a.NamesApart) (hb : b.NamesApart) (hform : a.kind.OneForm b.kind)
    (hvalue : value.DistinctNames) (hleft : a.Accepts ρ value) (hright : b.Accepts ρ value)
    (hparts : ∀ x ∈ a.kind.parts, ∀ y ∈ b.kind.parts, ∀ part : Json, part.DistinctNames →
      x.Accepts ρ part → y.Accepts ρ part → x.Conflicts y → x.kind.Unsettled y.kind)
    (h : combine Schema.intersect a b = .error conflict) : a.kind.Unsettled b.kind := by
  obtain ⟨title, description, k, extra⟩ := a
  obtain ⟨title', description', l, extra'⟩ := b
  dsimp only at hform
  cases hform with
  | primitives hmeet =>
    simp only [combine, hmeet] at h
    cases h
  | objects x y =>
    simp only [combine] at h
    obtain ⟨fields, rfl, hx⟩ := Kind.accepts_object_iff.mp hleft
    obtain ⟨_, heq, hy⟩ := Kind.accepts_object_iff.mp hright
    obtain rfl := Json.object.inj heq
    obtain ⟨a, b, hplace, hab⟩ := objects_eq_error (ha.nodup_properties rfl)
      (hb.nodup_patterns rfl) (map_eq_error_iff.mp h)
    cases hplace with
    | @property name hxname hyname =>
      by_cases hrequired : name ∈ x.required ∨ name ∈ y.required
      · -- The value has the property, and what it has there both sides accept.
        have hname : name ∈ Fields.keys fields :=
          hrequired.elim (hx.required name) (hy.required name)
        obtain ⟨part, hmem⟩ := Fields.mem_keys.mp hname
        obtain ⟨hfields, hvalues⟩ := Json.everyObject_object_iff.mp hvalue
        have hpart := Fields.get?_of_mem hfields hmem
        refine .required hxname hyname ⟨conflict, hab⟩ ?_
        exact hparts a (ObjectSchema.mem_parts_of_property (Fields.mem_of_get? hxname)) b
          (ObjectSchema.mem_parts_of_property (Fields.mem_of_get? hyname)) part
          (hvalues name part hmem) (hx.properties name a part hxname hpart)
          (hy.properties name b part hyname hpart) ⟨conflict, hab⟩
      · exact .property hxname hyname (not_or.mp hrequired) ⟨conflict, hab⟩
    | additional hxother hyother => exact .additional hxother hyother ⟨conflict, hab⟩
    | pattern hxpattern hypattern => exact .pattern hxpattern hypattern ⟨conflict, hab⟩
  | arrays hk hl =>
    cases k with
    | list =>
      cases l with
      | list | listOf _ | tuple _ => cases h
      | _ => cases hl
    | listOf x =>
      cases l with
      | list => cases h
      | listOf y => exact .items ⟨conflict, map_eq_error_iff.mp h⟩
      | tuple ys => exact .tupleRight x ys
      | _ => cases hl
    | tuple xs =>
      cases l with
      | list => cases h
      | listOf y => exact .tupleLeft xs y
      | tuple ys => exact .tuples xs ys
      | _ => cases hl
    | _ => cases hk

end Intersection

namespace Schema

variable {ρ : Interpretation} {a b : Schema} {value : Json}

/-- A value that a shape spells out and another asks for the form of. -/
theorem exists_literal_hasForm {k l : Kind} (hk : k.isLiteral = true) (haccepts : k.Accepts ρ value)
    (hl : l.hasFormOf value = true) : ∃ x ∈ k.literals, l.hasFormOf x = true := by
  have hcontains := (Kind.accepts_literal_iff hk).mp haccepts
  obtain ⟨x, hmem, hx⟩ := List.contains_iff_exists_mem_beq.mp hcontains
  exact ⟨x, hmem, (Kind.hasFormOf_of_beq hx).symm.trans hl⟩

/-- **Schemas in conflict that have a common value** are in conflict in one of the ways that do not
rule this out.  The induction is on the left schema; only a property that is required leads down to
parts. -/
theorem unsettled_of_conflicts (ha : a.Every Operand) (hb : b.Every Operand)
    (hvalue : value.DistinctNames) (hleft : a.Accepts ρ value) (hright : b.Accepts ρ value)
    (h : a.Conflicts b) : a.kind.Unsettled b.kind := by
  induction a using Schema.induction_parts generalizing b value with
  | h a ih =>
  obtain ⟨conflict, h⟩ := h
  rw [intersect_eq (ha.mono fun _ h => h.1) (hb.mono fun _ h => h.1)] at h
  split at h
  · cases h
  rcases hleft.cases_form ha.own.2 with ⟨reference, hk⟩ | hk | hk | hk
  · rw [hk]
    exact .refLeft reference b.kind
  · obtain ⟨m, hm⟩ := Intersection.combine_empty (.inl hk)
    rw [hm] at h
    cases h
  -- The left schema spells the value out; if the right one does too, they are not in conflict.
  · rcases hright.cases_form hb.own.2 with ⟨reference, hl⟩ | hl | hl | hl
    · rw [hl]
      exact .refRight a.kind reference
    · obtain ⟨m, hm⟩ := Intersection.combine_empty (.inr hl)
      rw [hm] at h
      cases h
    · obtain ⟨m, hm⟩ := Intersection.combine_literals ha.own.1.literals hk hl hvalue hleft hright
      rw [hm] at h
      cases h
    · obtain ⟨x, hmem, hform⟩ := exists_literal_hasForm hk hleft hl
      exact .literalLeft hmem hform
  -- The left schema asks for the type or form of the value.
  · rcases hright.cases_form hb.own.2 with ⟨reference, hl⟩ | hl | hl | hl
    · rw [hl]
      exact .refRight a.kind reference
    · obtain ⟨m, hm⟩ := Intersection.combine_empty (.inr hl)
      rw [hm] at h
      cases h
    · obtain ⟨y, hmem, hform⟩ := exists_literal_hasForm hl hright hk
      exact .literalRight hmem hform
    · have hform := Kind.oneForm_of_hasFormOf hk hl
      exact Intersection.unsettled_of_oneForm ha.own.1 hb.own.1 hform hvalue hleft hright
        (fun x hx y hy part hpart hxpart hypart hxy =>
          ih x hx (ha.parts x hx) (hb.parts y hy) hpart hxpart hypart hxy) h

end Schema

end RpcSchema
