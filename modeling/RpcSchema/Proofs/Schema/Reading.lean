import RpcSchema.Proofs.Schema.Paths
import RpcSchema.Proofs.Schema.Writing

/-!
# What reading leaves

A schema that was read keeps the keywords that were not taken, and takes those that decide its
shape.  So it keeps no keyword on which its shape has a claim.  Only an intersection may: it is
made of a shape and of compositions beside it, and what was kept beside that shape is kept
beside the intersection.

The same holds of all schemas within, because they are read in the same way, or are made of a
shape or a union that was read beside others.

## Main definitions

* `ReadsBody`, `ReadsShape` — how a shape is read, one rule for each precedence.
* `Kind.ComposedOf` — what is made of a shape and compositions.

## Main results

* `ReadsBody.of_readBody`, `ReadsShape.of_read` — all that reading can do.
* `Schema.read_congr` — the keywords that decide a shape decide whether there is one, and which.
* `ReadsBody.claims` — the keywords on which a shape has a claim are taken.
* `Schema.every_asRead` — a schema that was read keeps what reading leaves, at every depth.
-/

namespace RpcSchema

/-! ### How shapes are read -/

section Rules

variable (path : String) (fields : Fields Json)

/-- How a shape is read beside the compositions, and which keywords it takes. -/
inductive ReadsBody : Kind → List String → Prop
  | ref {reference : String} (href : Fields.get? fields "$ref" = some (.string reference)) :
      ReadsBody (.ref reference) ["$ref"]
  | const {value : Json} (href : Fields.get? fields "$ref" = none)
      (hconst : Fields.get? fields "const" = some value) :
      ReadsBody (.const value) ["const", "type"]
  | enum {type : Option Primitive} {values : List Json} (href : Fields.get? fields "$ref" = none)
      (hconst : Fields.get? fields "const" = none)
      (henum : Fields.get? fields "enum" = some (.array values)) :
      ReadsBody (.enum type values) ["type", "enum"]
  | object {shape : ObjectSchema} (href : Fields.get? fields "$ref" = none)
      (hconst : Fields.get? fields "const" = none) (henum : Fields.get? fields "enum" = none)
      (hread : Schema.readObject path fields = .ok shape) :
      ReadsBody (.object shape) (["type", "properties", "required", "additionalProperties",
        "patternProperties"] ++ if shape.names.isSome then ["propertyNames"] else [])
  | list (href : Fields.get? fields "$ref" = none) (hconst : Fields.get? fields "const" = none)
      (henum : Fields.get? fields "enum" = none) : ReadsBody .list ["type", "items"]
  | listOf {item : Json} {schema : Schema} (href : Fields.get? fields "$ref" = none)
      (hconst : Fields.get? fields "const" = none) (henum : Fields.get? fields "enum" = none)
      (hitems : Fields.get? fields "items" = some item)
      (hread : Schema.read (path ++ "/items") item = .ok schema) :
      ReadsBody (.listOf schema) ["type", "items"]
  | tuple {items : List Json} {schemas : List Schema} (href : Fields.get? fields "$ref" = none)
      (hconst : Fields.get? fields "const" = none) (henum : Fields.get? fields "enum" = none)
      (hitems : Fields.get? fields "items" = some (.array items))
      (hread : Schema.readItems (path ++ "/items") 0 items = .ok schemas) :
      ReadsBody (.tuple schemas) ["type", "items"]
  | primitive {type : Primitive} (href : Fields.get? fields "$ref" = none)
      (hconst : Fields.get? fields "const" = none) (henum : Fields.get? fields "enum" = none) :
      ReadsBody (.primitive type) ["type"]
  | empty (hfree : ∀ key ∈ bodyKeywords, key ≠ "type" → Fields.get? fields key = none) :
      ReadsBody .empty ["type"]

/-- What is made of a shape and the compositions beside it. -/
inductive Kind.ComposedOf (base : Kind) (parts branches alternatives : Option (List Schema)) :
    Kind → Prop
  | plain (hparts : parts = none) (hbranches : branches = none)
      (halternatives : alternatives = none) : ComposedOf base parts branches alternatives base
  | union {union : List Schema} (hbase : base = .empty)
      (hunion : union ∈ branches ∨ union ∈ alternatives) :
      ComposedOf base parts branches alternatives (.anyOf union)
  | intersection {items : List Schema}
      (hitems : ∀ item ∈ items, item = .ofKind base ∨ (∃ listed ∈ parts, item ∈ listed) ∨
        ∃ union, (union ∈ branches ∨ union ∈ alternatives) ∧ item = .ofKind (.anyOf union)) :
      ComposedOf base parts branches alternatives (.allOf items)

/-- How a shape is read, and which keywords it takes. -/
inductive ReadsShape : Kind → List String → Prop
  | never {negated : Json} (hnot : Fields.get? fields "not" = some negated)
      (haccepts : acceptsAnything negated = true) : ReadsShape .never ["not"]
  | composed {base kind : Kind} {taken : List String}
      {parts branches alternatives : Option (List Schema)}
      (hnot : ∀ negated ∈ Fields.get? fields "not", acceptsAnything negated = false)
      (hbody : ReadsBody path fields base taken)
      (hparts : Schema.readPartsAt path fields "allOf" = .ok parts)
      (hbranches : Schema.readPartsAt path fields "anyOf" = .ok branches)
      (halternatives : Schema.readPartsAt path fields "oneOf" = .ok alternatives)
      (hcomposed : Kind.ComposedOf base parts branches alternatives kind) :
      ReadsShape kind (compositionKeywords ++ taken)

end Rules

variable {path : String} {fields : Fields Json} {base kind : Kind} {taken : List String}
  {schema : Schema}

/-- The keywords of an object are absent when they describe none. -/
private theorem get?_of_not_describesObject (h : describesObject none fields = false) :
    ∀ key ∈ objectKeywords, Fields.get? fields key = none := by
  intro key hkey
  have hcontains := List.any_eq_false.mp h key hkey
  rw [Fields.contains, Option.isSome_iff_ne_none, not_not] at hcontains
  exact hcontains

section Body

variable (href : Fields.get? fields "$ref" = none) (hconst : Fields.get? fields "const" = none)
  (henum : Fields.get? fields "enum" = none)
include href hconst henum

private theorem ReadsBody.of_readArray (h : Schema.readArray path fields = .ok kind) :
    ReadsBody path fields kind ["type", "items"] := by
  rw [Schema.readArray_eq] at h
  split at h
  · cases h
    exact .list href hconst henum
  · next items hitems =>
    obtain ⟨schemas, hschemas, rfl⟩ := map_eq_ok_iff.mp h
    exact .tuple href hconst henum hitems hschemas
  · next item _ hitem =>
    obtain ⟨schema, hschema, rfl⟩ := map_eq_ok_iff.mp h
    exact .listOf href hconst henum hitem hschema

/-- A shape that nothing describes is read of fields with no keyword that would. -/
private theorem ReadsBody.of_undescribed (hobject : ¬describesObject none fields = true)
    (harray : ¬describesArray none fields = true) : ReadsBody path fields .empty ["type"] := by
  have hproperties := get?_of_not_describesObject (Bool.eq_false_iff.mpr hobject)
  have hitems : Fields.get? fields "items" = none := by
    simpa [describesArray, Fields.contains] using harray
  refine .empty fun key hkey htype => ?_
  have hcases : key = "$ref" ∨ key = "const" ∨ key = "enum" ∨ key = "items" ∨
      key ∈ objectKeywords := by
    clear * - hkey htype
    revert key
    decide
  rcases hcases with rfl | rfl | rfl | rfl | hkey
  · exact href
  · exact hconst
  · exact henum
  · exact hitems
  · exact hproperties key hkey

end Body

/-- **All that reading a shape beside the compositions can do.** -/
theorem ReadsBody.of_readBody (h : Schema.readBody path fields = .ok (kind, taken)) :
    ReadsBody path fields kind taken := by
  rw [Schema.readBody] at h
  -- The first keyword that is there decides, in the order in which they are looked for.
  split at h
  · next value href =>
    obtain ⟨found, hfound, heq⟩ := map_eq_ok_iff.mp h
    obtain ⟨rfl, rfl⟩ := Prod.mk.inj heq
    cases value with
    | string reference =>
      cases hfound
      exact .ref href
    | _ => cases hfound
  next href =>
  split at h
  · next value hconst =>
    cases h
    exact .const href hconst
  next hconst =>
  obtain ⟨type, htype, h⟩ := bind_eq_ok_iff.mp h
  split at h
  · next value henum =>
    obtain ⟨found, hfound, heq⟩ := map_eq_ok_iff.mp h
    obtain ⟨rfl, rfl⟩ := Prod.mk.inj heq
    cases value with
    | array values =>
      cases hfound
      exact .enum href hconst henum
    | _ => cases hfound
  next henum =>
  split at h
  · obtain ⟨shape, hshape, h⟩ := bind_eq_ok_iff.mp h
    cases h
    exact .object href hconst henum hshape
  next hobject =>
  split at h
  · obtain ⟨found, hfound, h⟩ := bind_eq_ok_iff.mp h
    cases h
    exact .of_readArray href hconst henum hfound
  next harray =>
  obtain ⟨found, hfound, heq⟩ := map_eq_ok_iff.mp h
  obtain ⟨rfl, rfl⟩ := Prod.mk.inj heq
  cases type with
  | some name =>
    rw [scalarKind] at hfound
    split at hfound
    · cases hfound
      exact .primitive href hconst henum
    · cases hfound
  | none =>
    cases hfound
    exact .of_undescribed href hconst henum hobject harray

/-- Fields without a negation that accepts nothing are read by their shape. -/
theorem Schema.read_of_not_negated
    (h : ∀ value ∈ Fields.get? fields "not", acceptsAnything value = false) :
    Schema.read path (.object fields) = (do
      let (base, taken) ← Schema.readBody path fields
      let parts ← Schema.readPartsAt path fields "allOf"
      let branches ← Schema.readPartsAt path fields "anyOf"
      let alternatives ← Schema.readPartsAt path fields "oneOf"
      let unions := branches.toList ++ alternatives.toList
      let kind := if parts.isNone && unions.isEmpty then base
        else composedKind base parts (unions.map .anyOf)
      .ok ⟨(Fields.get? fields "title").bind Json.string?,
        (Fields.get? fields "description").bind Json.string?, kind,
        (takenText fields "title" ++ takenText fields "description"
          ++ (["allOf", "anyOf", "oneOf"] ++ taken)).foldl Fields.swapErase fields⟩) := by
  have hnot : ((Fields.get? fields "not").map acceptsAnything).getD false = false := by
    cases hget : Fields.get? fields "not" with
    | none => rfl
    | some value => exact h value hget
  simp only [Schema.read, hnot, Bool.false_eq_true, if_false, List.append_assoc]

/-- What is made of a shape and the compositions beside it, told by what they are. -/
theorem Kind.ComposedOf.of_eq {parts branches alternatives : Option (List Schema)} :
    Kind.ComposedOf base parts branches alternatives
      (if parts.isNone && (branches.toList ++ alternatives.toList).isEmpty then base
        else composedKind base parts ((branches.toList ++ alternatives.toList).map .anyOf)) := by
  have hunion : ∀ union, union ∈ branches.toList ++ alternatives.toList →
      union ∈ branches ∨ union ∈ alternatives := fun union hmem =>
    (List.mem_append.mp hmem).imp Option.mem_toList.mp Option.mem_toList.mp
  split
  · next hnone =>
    rw [Bool.and_eq_true, Option.isNone_iff_eq_none, List.isEmpty_iff, List.append_eq_nil_iff,
      Option.toList_eq_nil_iff, Option.toList_eq_nil_iff] at hnone
    exact .plain hnone.1 hnone.2.1 hnone.2.2
  · have hbase : ∀ item ∈ if base.isEmpty then [] else [Schema.ofKind base],
        item = .ofKind base := by
      intro item hitem
      split at hitem
      · cases hitem
      · exact List.mem_singleton.mp hitem
    have hparts : ∀ item ∈ parts.getD [], ∃ listed ∈ parts, item ∈ listed := by
      intro item hitem
      cases parts with
      | none => cases hitem
      | some listed => exact ⟨listed, rfl, hitem⟩
    dsimp only [composedKind]
    generalize hbased : (if base.isEmpty then [] else [Schema.ofKind base]) = based at hbase ⊢
    -- A union that stands alone is kept as it is; anything else becomes an intersection.
    split
    · next union hunions _ =>
      obtain ⟨union, hlist, rfl⟩ := List.map_eq_singleton_iff.mp hunions
      refine .union ?_ (hunion union (hlist ▸ List.mem_singleton_self _))
      cases base <;> first | rfl | cases hbased
    · refine .intersection fun item hitem => ?_
      rcases List.mem_append.mp hitem with hitem | hitem
      · rcases List.mem_append.mp hitem with hitem | hitem
        · exact .inl (hbase item hitem)
        · exact .inr (.inl (hparts item hitem))
      · rw [List.map_map, List.mem_map] at hitem
        obtain ⟨union, hmem, rfl⟩ := hitem
        exact .inr (.inr ⟨union, hunion union hmem, rfl⟩)

/-- **All that reading an object can do.** -/
theorem ReadsShape.of_read (h : Schema.read path (.object fields) = .ok schema) :
    ∃ taken, ReadsShape path fields schema.kind taken ∧
      schema.title = (Fields.get? fields "title").bind Json.string? ∧
        schema.description = (Fields.get? fields "description").bind Json.string? ∧
          schema.extra = (takenText fields "title" ++ takenText fields "description" ++ taken).foldl
            Fields.swapErase fields := by
  by_cases hnot : ∀ negated ∈ Fields.get? fields "not", acceptsAnything negated = false
  · rw [Schema.read_of_not_negated hnot] at h
    obtain ⟨⟨base, taken⟩, hbody, h⟩ := bind_eq_ok_iff.mp h
    obtain ⟨parts, hparts, h⟩ := bind_eq_ok_iff.mp h
    obtain ⟨branches, hbranches, h⟩ := bind_eq_ok_iff.mp h
    obtain ⟨alternatives, halternatives, h⟩ := bind_eq_ok_iff.mp h
    cases h
    exact ⟨_, .composed hnot (.of_readBody hbody) hparts hbranches halternatives .of_eq, rfl, rfl,
      rfl⟩
  · push Not at hnot
    obtain ⟨negated, hget, haccepts⟩ := hnot
    rw [Schema.read, hget] at h
    have haccepts := Bool.not_eq_false _ |>.mp haccepts
    simp only [Option.map_some, Option.getD_some, haccepts, if_true] at h
    cases h
    exact ⟨_, .never hget haccepts, rfl, rfl, rfl⟩

/-! ### Fields that decide nothing -/

theorem Schema.readPartsAt_missing {key : String} (path : String)
    (hget : Fields.get? fields key = none) : Schema.readPartsAt path fields key = .ok none := by
  rw [Schema.readPartsAt_eq, hget]

/-- Fields without a keyword that decides a shape are read as no shape. -/
theorem Schema.readBody_empty (path : String)
    (h : ∀ key ∈ shapeKeywords, key ∉ ["not", "allOf", "anyOf", "oneOf"] →
      Fields.get? fields key = none) :
    Schema.readBody path fields = .ok (.empty, ["type"]) := by
  have hobject : describesObject none fields = false := by
    rw [describesObject, List.any_eq_false]
    intro key hkey
    have hnone : Fields.get? fields key = none :=
      h key (by revert hkey key; decide) (by revert hkey key; decide)
    rw [Fields.contains, hnone]
    exact Bool.false_ne_true
  have harray : describesArray none fields = false := by
    rw [describesArray, Fields.contains, h "items" (by decide) (by decide)]
    rfl
  rw [Schema.readBody, h "$ref" (by decide) (by decide), h "const" (by decide) (by decide),
    h "type" (by decide) (by decide), h "enum" (by decide) (by decide)]
  change (if describesObject none fields = true then _ else if describesArray none fields = true
    then _ else _) = _
  rw [hobject, harray]
  rfl

/-- No fields at all describe a schema that accepts anything. -/
theorem Schema.read_object_nil (path : String) :
    Schema.read path (.object []) = .ok (.ofKind .empty) := by
  have hnone : ∀ key, Schema.readPartsAt path [] key = .ok none := fun key =>
    Schema.readPartsAt_missing path rfl
  rw [Schema.read_of_not_negated fun _ hmem => absurd hmem (Option.not_mem_none _),
    Schema.readBody_empty path fun _ _ _ => rfl, hnone, hnone, hnone]
  rfl

/-! ### The keywords that a shape is read of -/

section Congruence

variable {fields' : Fields Json}
  (h : ∀ key ∈ shapeKeywords, Fields.get? fields key = Fields.get? fields' key)
include h

theorem Schema.readObject_congr (path : String) :
    Schema.readObject path fields = Schema.readObject path fields' := by
  simp only [Schema.readObject, Schema.readFieldsAt_eq, Schema.readAdditional_eq, listedNames?,
    h "properties" (by decide), h "required" (by decide), h "additionalProperties" (by decide),
    h "patternProperties" (by decide), h "propertyNames" (by decide)]

theorem Schema.readBody_congr (path : String) :
    Schema.readBody path fields = Schema.readBody path fields' := by
  have hobject : ∀ type, describesObject type fields = describesObject type fields' := by
    intro type
    cases type with
    | some name => rfl
    | none =>
      simp only [describesObject, objectKeywords, List.any_cons, List.any_nil, Fields.contains,
        h "properties" (by decide), h "required" (by decide), h "additionalProperties" (by decide),
        h "patternProperties" (by decide), h "propertyNames" (by decide)]
  have harray : ∀ type, describesArray type fields = describesArray type fields' := by
    intro type
    simp only [describesArray, Fields.contains, h "items" (by decide)]
  simp only [Schema.readBody, Schema.readArray_eq, Schema.readObject_congr h, hobject, harray,
    h "$ref" (by decide), h "const" (by decide), h "type" (by decide), h "enum" (by decide),
    h "items" (by decide)]

/-- **The shape of a schema is read of the keywords with a meaning**, so that fields with the
same keywords are read as schemas of the same shape. -/
theorem Schema.read_congr (hread : Schema.read path (.object fields) = .ok schema) :
    ∃ found, Schema.read path (.object fields') = .ok found ∧ found.kind = schema.kind := by
  by_cases hnot : ∀ negated ∈ Fields.get? fields "not", acceptsAnything negated = false
  · have hparts : ∀ key ∈ compositionKeywords,
        Schema.readPartsAt path fields key = Schema.readPartsAt path fields' key := by
      intro key hkey
      have hshape : key ∈ shapeKeywords := by
        revert key
        decide
      rw [Schema.readPartsAt_eq, Schema.readPartsAt_eq, h key hshape]
    rw [Schema.read_of_not_negated hnot] at hread
    rw [h "not" (by decide)] at hnot
    obtain ⟨⟨base, taken⟩, hbody, hread⟩ := bind_eq_ok_iff.mp hread
    obtain ⟨parts, hallOf, hread⟩ := bind_eq_ok_iff.mp hread
    obtain ⟨branches, hanyOf, hread⟩ := bind_eq_ok_iff.mp hread
    obtain ⟨alternatives, honeOf, hread⟩ := bind_eq_ok_iff.mp hread
    cases hread
    rw [Schema.readBody_congr h] at hbody
    rw [hparts _ (by decide)] at hallOf hanyOf honeOf
    rw [Schema.read_of_not_negated hnot, hbody, hallOf, hanyOf, honeOf]
    exact ⟨_, rfl, rfl⟩
  · rw [Schema.read] at hread ⊢
    rw [← h "not" (by decide)]
    have hnegated : ((Fields.get? fields "not").map acceptsAnything).getD false = true := by
      push Not at hnot
      obtain ⟨negated, hget, haccepts⟩ := hnot
      rw [Option.mem_def.mp hget, Option.map_some, Option.getD_some]
      exact Bool.not_eq_false _ |>.mp haccepts
    rw [if_pos hnegated] at hread
    cases hread
    exact ⟨_, if_pos hnegated, rfl⟩

end Congruence

/-! ### Reading the parts -/

section Parts

variable {p : Schema → Prop}

theorem Schema.forall_of_readItems {items : List Json} {first : Nat} {found : List Schema}
    (h : ∀ item ∈ items, ∀ path schema, Schema.read path item = .ok schema → p schema)
    (hread : Schema.readItems path first items = .ok found) : ∀ schema ∈ found, p schema := by
  induction items generalizing first found with
  | nil =>
    rw [Schema.readItems] at hread
    cases hread
    exact List.forall_mem_nil _
  | cons item rest ih =>
    obtain ⟨hitem, hrest⟩ := List.forall_mem_cons.mp h
    rw [Schema.readItems] at hread
    obtain ⟨schema, hschema, hread⟩ := bind_eq_ok_iff.mp hread
    obtain ⟨schemas, hschemas, hread⟩ := bind_eq_ok_iff.mp hread
    cases hread
    exact List.forall_mem_cons.mpr ⟨hitem _ schema hschema, ih hrest hschemas⟩

/-- Named schemas are read under the same names. -/
theorem Schema.forall_of_readFields {entries : Fields Json} {found : Fields Schema}
    (h : ∀ entry ∈ entries, ∀ path schema, Schema.read path entry.2 = .ok schema → p schema)
    (hread : Schema.readFields path entries = .ok found) :
    Fields.keys found = Fields.keys entries ∧ ∀ entry ∈ found, p entry.2 := by
  induction entries generalizing found with
  | nil =>
    rw [Schema.readFields] at hread
    cases hread
    exact ⟨rfl, List.forall_mem_nil _⟩
  | cons entry rest ih =>
    obtain ⟨name, value⟩ := entry
    obtain ⟨hvalue, hrest⟩ := List.forall_mem_cons.mp h
    rw [Schema.readFields] at hread
    obtain ⟨schema, hschema, hread⟩ := bind_eq_ok_iff.mp hread
    obtain ⟨schemas, hschemas, hread⟩ := bind_eq_ok_iff.mp hread
    cases hread
    obtain ⟨hkeys, hall⟩ := ih hrest hschemas
    exact ⟨congrArg (name :: ·) hkeys, List.forall_mem_cons.mpr ⟨hvalue _ schema hschema, hall⟩⟩

/-- The names of `required` are kept once. -/
theorem nodup_requiredNames {names found : List String} {values : List Json} (h : names.Nodup)
    (hread : requiredNames path names values = .ok found) : found.Nodup := by
  induction values generalizing names with
  | nil =>
    cases hread
    exact h
  | cons value rest ih =>
    cases value with
    | string name =>
      rw [requiredNames] at hread
      refine ih ?_ hread
      split
      · exact h
      · next hnew =>
        have hname : name ∉ names := by simpa using hnew
        exact List.nodup_append.mpr ⟨h,
          List.nodup_cons.mpr ⟨List.not_mem_nil, List.nodup_nil⟩,
          fun a ha b hb => fun hab => hname (List.mem_singleton.mp hb ▸ hab ▸ ha)⟩
    | _ => cases hread

theorem nodup_required? {value : Option Json} {found : List String}
    (hread : required? path value = .ok found) : found.Nodup := by
  unfold required? at hread
  split at hread
  · cases hread
    exact List.nodup_nil
  · exact nodup_requiredNames List.nodup_nil hread
  · cases hread

-- All that is smaller than the members is read as schemas that satisfy `p`.
variable (hfields : (Json.object fields).DistinctNames)
  (h : ∀ value, sizeOf value < sizeOf fields → value.DistinctNames →
    ∀ path schema, Schema.read path value = .ok schema → p schema)

include hfields in
theorem Json.DistinctNames.of_get? {key : String} {value : Json}
    (hget : Fields.get? fields key = some value) : value.DistinctNames :=
  hfields.of_hasPart (.member (Fields.mem_of_get? hget))

include hfields h

/-- What is below a keyword is smaller than the members. -/
private theorem of_hasPart_get? {key : String} {value part : Json}
    (hget : Fields.get? fields key = some value) (hpart : Json.HasPart value part) :
    ∀ path schema, Schema.read path part = .ok schema → p schema := by
  have hlt := sizeOf_lt_of_get? hget
  have hsub := Json.sizeOf_lt_of_hasPart hpart
  exact h part (by omega) ((hfields.of_get? hget).of_hasPart hpart)

theorem Schema.forall_of_readFieldsAt {key : String} {found : Fields Schema}
    (hread : Schema.readFieldsAt path fields key = .ok found) :
    (Fields.keys found).Nodup ∧ ∀ entry ∈ found, p entry.2 := by
  rw [Schema.readFieldsAt_eq] at hread
  split at hread
  · cases hread
    exact ⟨List.nodup_nil, List.forall_mem_nil _⟩
  · next entries hget =>
    obtain ⟨hkeys, hall⟩ := Schema.forall_of_readFields
      (fun entry hentry => of_hasPart_get? hfields h hget (.member hentry)) hread
    exact ⟨hkeys ▸ (Json.everyObject_object_iff.mp (hfields.of_get? hget)).1, hall⟩
  · cases hread

theorem Schema.forall_of_readAdditional {found : Additional}
    (hread : Schema.readAdditional path fields = .ok found) :
    ∀ schema, found = .schema schema → p schema := by
  rintro schema rfl
  rw [Schema.readAdditional_eq] at hread
  split at hread
  · cases hread
  · cases hread
  · next value _ hget =>
    obtain ⟨found, hfound, heq⟩ := map_eq_ok_iff.mp hread
    obtain rfl := Additional.schema.inj heq
    exact h value (sizeOf_lt_of_get? hget) (hfields.of_get? hget) _ found hfound

theorem Schema.forall_of_readPartsAt {key : String} {found : Option (List Schema)}
    (hread : Schema.readPartsAt path fields key = .ok found) :
    ∀ listed ∈ found, ∀ schema ∈ listed, p schema := by
  rw [Schema.readPartsAt_eq] at hread
  split at hread
  · cases hread
    exact fun _ hmem => absurd hmem (Option.not_mem_none _)
  · next items hget =>
    obtain ⟨schemas, hschemas, rfl⟩ := map_eq_ok_iff.mp hread
    intro listed hlisted
    obtain rfl := Option.some.inj hlisted
    exact Schema.forall_of_readItems
      (fun item hitem => of_hasPart_get? hfields h hget (.item hitem)) hschemas
  · cases hread

/-- An object shape is read without repeated names, and of parts that are read. -/
theorem ObjectSchema.of_readObject {shape : ObjectSchema}
    (hread : Schema.readObject path fields = .ok shape) :
    (∀ map ∈ (Kind.object shape).maps, (Fields.keys map).Nodup) ∧ shape.required.Nodup ∧
      shape.names = listedNames? fields ∧ ∀ part ∈ shape.parts, p part := by
  rw [Schema.readObject] at hread
  obtain ⟨properties, hproperties, hread⟩ := bind_eq_ok_iff.mp hread
  obtain ⟨required, hrequired, hread⟩ := bind_eq_ok_iff.mp hread
  obtain ⟨additional, hadditional, hread⟩ := bind_eq_ok_iff.mp hread
  obtain ⟨patterns, hpatterns, hread⟩ := bind_eq_ok_iff.mp hread
  cases hread
  obtain ⟨hnodup, hdeclared⟩ := Schema.forall_of_readFieldsAt hfields h hproperties
  obtain ⟨hnodup', hmatched⟩ := Schema.forall_of_readFieldsAt hfields h hpatterns
  refine ⟨?_, nodup_required? hrequired, rfl, ObjectSchema.forall_parts_iff.mpr ⟨hdeclared,
    Schema.forall_of_readAdditional hfields h hadditional, hmatched⟩⟩
  rintro map hmap
  rcases List.mem_cons.mp hmap with rfl | hmap
  · exact hnodup
  · exact List.mem_singleton.mp hmap ▸ hnodup'

end Parts

/-! ### What is kept -/

namespace ReadsBody

variable (hbody : ReadsBody path fields base taken)
include hbody

/-- **The keywords on which a shape has a claim are taken**, or are compositions, or are not
there. -/
theorem claims : ∀ key ∈ base.claims,
    key ∈ compositionKeywords ++ taken ∨ Fields.get? fields key = none := by
  have hclaims : ∀ {others : List String},
      (∀ key ∈ others, key ∈ taken ∨ Fields.get? fields key = none) →
        ∀ key ∈ compositionKeywords ++ others,
          key ∈ compositionKeywords ++ taken ∨ Fields.get? fields key = none := by
    intro others h key hkey
    rcases List.mem_append.mp hkey with hkey | hkey
    · exact .inl (List.mem_append_left _ hkey)
    · exact (h key hkey).imp_left (List.mem_append_right _)
  cases hbody with
  | ref href => exact hclaims (by simp)
  | const href hconst => exact hclaims (by simp [href])
  | enum href hconst henum => exact hclaims (by simp [href, hconst])
  | object href hconst henum hread =>
    rw [Kind.claims, List.append_assoc]
    refine hclaims fun key hkey => ?_
    simp only [List.mem_append, List.mem_cons, List.not_mem_nil, or_false] at hkey ⊢
    rcases hkey with (rfl | rfl | rfl | rfl | hkey) | hkey
    · exact .inr href
    · exact .inr hconst
    · exact .inl (.inl (.inl rfl))
    · exact .inr henum
    · exact .inl (.inl (.inr hkey))
    · exact .inl (.inr hkey)
  | list href hconst henum | listOf href hconst henum | tuple href hconst henum
  | primitive href hconst henum => exact hclaims (by simp [href, hconst, henum])
  | empty hfree =>
    refine hclaims fun key hkey => ?_
    by_cases htype : key = "type"
    · exact .inl (List.mem_singleton.mpr htype)
    · exact .inr (hfree key hkey htype)

section Parts

variable {p : Schema → Prop} (hfields : (Json.object fields).DistinctNames)
  (h : ∀ value, sizeOf value < sizeOf fields → value.DistinctNames →
    ∀ path schema, Schema.read path value = .ok schema → p schema)
include hfields h

/-- A shape is made of parts that are read. -/
theorem parts : ∀ part ∈ base.parts, p part := by
  cases hbody with
  | object href hconst henum hread => exact (ObjectSchema.of_readObject hfields h hread).2.2.2
  | @listOf item schema href hconst henum hitems hread =>
    intro part hpart
    obtain rfl := List.mem_singleton.mp hpart
    exact h item (sizeOf_lt_of_get? hitems) (hfields.of_get? hitems) _ part hread
  | tuple href hconst henum hitems hread =>
    exact Schema.forall_of_readItems
      (fun item hitem => of_hasPart_get? hfields h hitems (.item hitem)) hread
  | _ => exact List.forall_mem_nil _

end Parts

variable (hfields : (Json.object fields).DistinctNames)
include hfields

theorem literals : ∀ value ∈ base.literals, value.DistinctNames := by
  cases hbody with
  | const href hconst =>
    intro value hvalue
    exact List.mem_singleton.mp hvalue ▸ hfields.of_get? hconst
  | enum href hconst henum =>
    exact fun value hvalue => (hfields.of_get? henum).of_hasPart (.item hvalue)
  | _ => exact List.forall_mem_nil _

theorem maps : ∀ map ∈ base.maps, (Fields.keys map).Nodup := by
  cases hbody with
  | object href hconst henum hread =>
    exact (ObjectSchema.of_readObject hfields (fun _ _ _ _ _ _ => trivial) hread).1
  | _ => exact List.forall_mem_nil _

theorem object_shape : ∀ shape, base = .object shape →
    shape.required.Nodup ∧ shape.names = listedNames? fields := by
  rintro shape rfl
  cases hbody with
  | object href hconst henum hread =>
    obtain ⟨-, hrequired, hnames, -⟩ :=
      ObjectSchema.of_readObject hfields (fun _ _ _ _ _ _ => trivial) hread
    exact ⟨hrequired, hnames⟩

end ReadsBody

/-- A shape about which nothing else is said. -/
theorem Schema.AsRead.ofKind (hliterals : ∀ value ∈ kind.literals, value.DistinctNames)
    (hmaps : ∀ map ∈ kind.maps, (Fields.keys map).Nodup)
    (hobject : ∀ shape, kind = .object shape → shape.required.Nodup) :
    (Schema.ofKind kind).AsRead where
  names := ⟨Json.everyObject_object_iff.mpr
    ⟨List.nodup_nil, fun _ _ hmem => absurd hmem List.not_mem_nil⟩, hliterals, hmaps⟩
  title := fun _ hkept => absurd hkept (Option.not_mem_none _)
  description := fun _ hkept => absurd hkept (Option.not_mem_none _)
  negation := fun _ _ hkept => absurd hkept (Option.not_mem_none _)
  compositions := fun _ _ _ => List.not_mem_nil
  claims := fun _ _ _ => List.not_mem_nil
  object := fun shape hshape => ⟨hobject shape hshape, fun _ => rfl⟩

namespace ReadsShape

variable (hshape : ReadsShape path fields kind taken)
include hshape

theorem negation (hnever : kind ≠ .never) :
    ∀ negated ∈ Fields.get? fields "not", acceptsAnything negated = false := by
  cases hshape with
  | never => exact absurd rfl hnever
  | composed hnot => exact hnot

theorem compositions (hnever : kind ≠ .never) : compositionKeywords ⊆ taken := by
  cases hshape with
  | never => exact absurd rfl hnever
  | composed => exact List.subset_append_left _ _

/-- The keywords on which a shape has a claim are taken, or are not there, except beside an
intersection. -/
theorem claims (hkind : ∀ parts, kind ≠ .allOf parts) : ∀ key ∈ kind.claims,
    key ∈ taken ∨ Fields.get? fields key = none := by
  cases hshape with
  | never => exact fun key hkey => .inl hkey
  | composed hnot hbody hparts hbranches halternatives hcomposed =>
    cases hcomposed with
    | plain => exact hbody.claims
    | union hbase =>
      subst hbase
      exact hbody.claims
    | intersection => exact absurd rfl (hkind _)

variable (hfields : (Json.object fields).DistinctNames)
include hfields

theorem literals : ∀ value ∈ kind.literals, value.DistinctNames := by
  cases hshape with
  | composed hnot hbody hparts hbranches halternatives hcomposed =>
    cases hcomposed with
    | plain => exact hbody.literals hfields
    | _ => exact List.forall_mem_nil _
  | never => exact List.forall_mem_nil _

theorem maps : ∀ map ∈ kind.maps, (Fields.keys map).Nodup := by
  cases hshape with
  | composed hnot hbody hparts hbranches halternatives hcomposed =>
    cases hcomposed with
    | plain => exact hbody.maps hfields
    | _ => exact List.forall_mem_nil _
  | never => exact List.forall_mem_nil _

theorem object_shape : ∀ shape, kind = .object shape →
    shape.required.Nodup ∧ shape.names = listedNames? fields := by
  intro shape hkind
  cases hshape with
  | composed hnot hbody hparts hbranches halternatives hcomposed =>
    cases hcomposed with
    | plain => exact hbody.object_shape hfields shape hkind
    | _ => cases hkind
  | never => cases hkind

/-- The parts of a shape were read, or are made of what was read. -/
theorem parts (h : ∀ value, sizeOf value < sizeOf fields → value.DistinctNames →
    ∀ path schema, Schema.read path value = .ok schema → schema.Every Schema.AsRead) :
    ∀ part ∈ kind.parts, part.Every Schema.AsRead := by
  cases hshape with
  | never => exact List.forall_mem_nil _
  | @composed base _ _ parts branches alternatives hnot hbody hparts hbranches halternatives
      hcomposed =>
    have hbase := hbody.parts hfields h
    have hunions : ∀ union, union ∈ branches ∨ union ∈ alternatives →
        ∀ item ∈ union, Schema.Every Schema.AsRead item := fun union hunion =>
      hunion.elim (Schema.forall_of_readPartsAt hfields h hbranches union)
        (Schema.forall_of_readPartsAt hfields h halternatives union)
    cases hcomposed with
    | plain => exact hbase
    | union _ hunion => exact hunions _ hunion
    | intersection hitems =>
      intro item hitem
      rcases hitems item hitem with rfl | ⟨listed, hlisted, hmem⟩ | ⟨union, hunion, rfl⟩
      · exact .intro (.ofKind (hbody.literals hfields) (hbody.maps hfields)
          fun shape hshape => (hbody.object_shape hfields shape hshape).1) hbase
      · exact Schema.forall_of_readPartsAt hfields h hparts listed hlisted item hmem
      · exact .intro (.ofKind (List.forall_mem_nil _)
          (List.forall_mem_nil _) fun _ hshape => Kind.noConfusion hshape)
            (hunions union hunion)

end ReadsShape

/-- **What was read keeps what reading leaves.** -/
theorem Schema.asRead_of_read (hfields : (Json.object fields).DistinctNames)
    (h : Schema.read path (.object fields) = .ok schema) : schema.AsRead := by
  obtain ⟨taken, hshape, htitle, hdescription, hextra⟩ := ReadsShape.of_read h
  obtain ⟨hnodup, hmembers⟩ := Json.everyObject_object_iff.mp hfields
  -- What is kept is what stands there and was not taken.
  have hget : ∀ {key value}, Fields.get? schema.extra key = some value ↔
      key ∉ takenText fields "title" ++ takenText fields "description" ++ taken ∧
        Fields.get? fields key = some value := by
    intro key value
    rw [hextra]
    exact Fields.get?_foldl_swapErase_eq_some_iff hnodup _
  have hfree : ∀ key, key ∈ taken ∨ Fields.get? fields key = none →
      key ∉ Fields.keys schema.extra := by
    intro key hkey
    rw [← Fields.get?_eq_none_iff, Option.eq_none_iff_forall_ne_some]
    intro value hvalue
    obtain ⟨hother, hsome⟩ := hget.mp hvalue
    rcases hkey with hkey | hkey
    · exact hother (List.mem_append_right _ hkey)
    · rw [hkey] at hsome
      cases hsome
  have htext : ∀ {name : String} {text : Option String},
      takenText fields name ⊆ takenText fields "title" ++ takenText fields "description" →
      text = (Fields.get? fields name).bind Json.string? →
        ∀ kept ∈ Fields.get? schema.extra name, text = none ∧ kept.string? = none := by
    intro name text hsubset htext kept hkept
    obtain ⟨hother, hsome⟩ := hget.mp hkept
    have hnone : kept.string? = none := by
      cases hstring : kept.string? with
      | none => rfl
      | some text =>
        refine absurd (List.mem_append_left _ (hsubset ?_)) hother
        rw [takenText, hsome, Option.bind_some, hstring]
        exact List.mem_singleton_self _
    exact ⟨by rw [htext, hsome, Option.bind_some, hnone], hnone⟩
  have hperm := Fields.foldl_swapErase_perm hnodup
    (takenText fields "title" ++ takenText fields "description" ++ taken)
  rw [← hextra] at hperm
  refine ⟨⟨Json.everyObject_object_iff.mpr ⟨?_, fun name part hpart => ?_⟩,
    hshape.literals hfields, hshape.maps hfields⟩,
    htext (List.subset_append_left _ _) htitle, htext (List.subset_append_right _ _) hdescription,
    fun hnever kept hkept => ?_, fun hnever key hkey => ?_,
    fun hkind key hkey => hfree key (hshape.claims hkind key hkey), fun shape hobject => ?_⟩
  · exact hextra ▸ Fields.nodup_keys_foldl_swapErase hnodup _
  · exact hmembers name part (List.mem_of_mem_filter (hperm.mem_iff.mp hpart))
  · exact hshape.negation hnever kept (hget.mp hkept).2
  · exact hfree key (.inl (hshape.compositions hnever hkey))
  · obtain ⟨hrequired, hnames⟩ := hshape.object_shape hfields shape hobject
    refine ⟨hrequired, fun hnone => ?_⟩
    rw [hnames, listedNames?] at hnone
    rw [listedNames?]
    cases hkept : Fields.get? schema.extra "propertyNames" with
    | none => rfl
    | some kept =>
      rw [(hget.mp hkept).2] at hnone
      exact hnone

/-- **A schema that was read keeps what reading leaves**, and so do all schemas within it. -/
theorem Schema.every_asRead {value : Json} (hvalue : value.DistinctNames)
    (h : Schema.read path value = .ok schema) : schema.Every Schema.AsRead := by
  have hbare : ∀ {kind : Kind}, kind.literals = [] → kind.maps = [] → kind.parts = [] →
      (∀ shape, kind ≠ .object shape) → (Schema.ofKind kind).Every Schema.AsRead := by
    intro kind hliterals hmaps hparts hobject
    refine .intro (.ofKind ?_ ?_ fun shape hshape => absurd hshape (hobject shape)) ?_
    · rw [hliterals]
      exact List.forall_mem_nil _
    · rw [hmaps]
      exact List.forall_mem_nil _
    · intro part hpart
      replace hpart : part ∈ kind.parts := hpart
      rw [hparts] at hpart
      exact absurd hpart List.not_mem_nil
  induction hsize : sizeOf value using Nat.strongRecOn generalizing value path schema with
  | ind size ih =>
  subst hsize
  cases value with
  | object fields =>
    obtain ⟨taken, hshape, -⟩ := ReadsShape.of_read h
    refine .intro (Schema.asRead_of_read hvalue h) (hshape.parts hvalue ?_)
    intro part hlt hpart path schema hread
    refine ih (sizeOf part) ?_ hpart hread rfl
    rw [Json.object.sizeOf_spec]
    omega
  | bool flag =>
    cases flag <;> rw [Schema.read] at h <;> cases h <;>
      exact hbare rfl rfl rfl fun _ => Kind.noConfusion
  | null | number _ | string _ | array _ =>
    simp only [Schema.read, refuse] at h
    cases h

end RpcSchema
