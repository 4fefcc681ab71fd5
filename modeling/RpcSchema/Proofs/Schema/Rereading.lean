import RpcSchema.Proofs.Schema.RoundTrip

/-!
# Schemas that were read, written and read again

A schema that was read from a value is not always read back from what is written of it.  Three
things are written like something else: an enumeration that states a type without being of a
primitive type, when its values share one; the schema of undeclared properties, when it accepts
nothing; and an intersection beside which keywords are kept that describe a shape.  Everything
else is read back, so that a schema is read back exactly when none of these stands in it, at any
depth.

What a schema was read from gives the first half: it keeps what reading leaves, and then nothing
but these three things can go wrong.  For the other half reading is followed backwards.  A shape
that is read again of equal parts was read of the same keywords, and each part was read of what
was written of it.

## Main results

* `Schema.AsRead.of_readsBack` — what is read back is unmistakable, and so are its parts.
* `Schema.AsRead.readsBack_iff` — one level, both ways.
* `Schema.ofJson_toJson_iff` — when a schema that was read is read back.
-/

namespace RpcSchema

variable {written : Fields Json} {path : String} {schema : Schema}

/-- To be read back at one path is enough. -/
theorem Schema.ReadsBack.of_read {found : Schema}
    (hread : Schema.read path schema.toJson = .ok found) (heq : (found == schema) = true) :
    schema.ReadsBack := by
  intro path'
  refine ⟨found, ?_, heq⟩
  rw [← toOption_eq_some_iff, Schema.pathFree schema.toJson path' path, toOption_eq_some_iff, hread]

/-! ### Following the reading of parts -/

theorem Schema.forall_readsBack_of_readItems {items found : List Schema} {first : Nat}
    (hread : Schema.readItems path first (Schema.toJsonItems items) = .ok found)
    (halike : List.Forall₂ (fun x y => (x == y) = true) found items) :
    ∀ item ∈ items, item.ReadsBack := by
  induction items generalizing first found with
  | nil => exact List.forall_mem_nil _
  | cons item rest ih =>
    rw [Schema.toJsonItems, Schema.readItems] at hread
    obtain ⟨schema, hschema, hread⟩ := bind_eq_ok_iff.mp hread
    obtain ⟨schemas, hschemas, hread⟩ := bind_eq_ok_iff.mp hread
    cases hread
    obtain ⟨heq, hrest⟩ := List.forall₂_cons.mp halike
    exact List.forall_mem_cons.mpr ⟨.of_read hschema heq, ih hschemas hrest⟩

/-- No item is lost when a list of written schemas is read. -/
theorem Schema.length_of_readItems {items found : List Schema} {first : Nat}
    (hread : Schema.readItems path first (Schema.toJsonItems items) = .ok found) :
    found.length = items.length := by
  induction items generalizing first found with
  | nil =>
    rw [Schema.toJsonItems, Schema.readItems] at hread
    cases hread
    rfl
  | cons item rest ih =>
    rw [Schema.toJsonItems, Schema.readItems] at hread
    obtain ⟨schema, -, hread⟩ := bind_eq_ok_iff.mp hread
    obtain ⟨schemas, hschemas, hread⟩ := bind_eq_ok_iff.mp hread
    cases hread
    rw [List.length_cons, List.length_cons, ih hschemas]

/-- A named schema is read under its name. -/
private theorem exists_of_readFields {entries : Fields Json} {found : Fields Schema} {name : String}
    {value : Json} (hread : Schema.readFields path entries = .ok found)
    (hget : Fields.get? entries name = some value) :
    ∃ path' schema, Fields.get? found name = some schema ∧
      Schema.read path' value = .ok schema := by
  induction entries generalizing found with
  | nil => cases hget
  | cons entry rest ih =>
    obtain ⟨other, first⟩ := entry
    rw [Schema.readFields] at hread
    obtain ⟨schema, hschema, hread⟩ := bind_eq_ok_iff.mp hread
    obtain ⟨schemas, hschemas, hread⟩ := bind_eq_ok_iff.mp hread
    cases hread
    rw [Fields.get?_cons] at hget ⊢
    split at hget
    · next heq =>
      cases hget
      exact ⟨_, schema, if_pos heq, hschema⟩
    · next hne =>
      rw [if_neg hne]
      exact ih hschemas hget

theorem Schema.toJsonFields_eq (fields : Fields Schema) :
    Schema.toJsonFields fields = Fields.mapValues Schema.toJson fields := by
  induction fields with
  | nil => rfl
  | cons entry rest ih =>
    rw [Schema.toJsonFields, ih]
    rfl

theorem Schema.forall_readsBack_of_readFields {fields found : Fields Schema}
    (hread : Schema.readFields path (Schema.toJsonFields fields) = .ok found)
    (hnames : (Fields.keys fields).Nodup)
    (halike : Fields.Alike (fun x y => (x == y) = true) found fields) :
    ∀ entry ∈ fields, entry.2.ReadsBack := by
  rintro ⟨name, schema⟩ hentry
  have hget := Fields.get?_of_mem hnames hentry
  have hwritten : Fields.get? (Schema.toJsonFields fields) name = some schema.toJson := by
    rw [Schema.toJsonFields_eq, Fields.get?_mapValues, hget, Option.map_some]
  obtain ⟨path', first, hfirst, hschema⟩ := exists_of_readFields hread hwritten
  obtain ⟨other, hother, heq⟩ := halike.get? hfirst
  obtain rfl := Option.some.inj (hother.symm.trans hget)
  exact .of_read hschema heq

theorem Schema.forall_readsBack_of_readFieldsAt {fields found : Fields Schema} {key : String}
    (hget : Fields.get? written key =
      Fields.get? (memberUnlessEmpty key (Schema.toJsonFields fields)) key)
    (hread : Schema.readFieldsAt path written key = .ok found)
    (hnames : (Fields.keys fields).Nodup)
    (halike : Fields.Alike (fun x y => (x == y) = true) found fields) :
    ∀ entry ∈ fields, entry.2.ReadsBack := by
  cases fields with
  | nil => exact List.forall_mem_nil _
  | cons entry rest =>
    rw [Schema.readFieldsAt_eq, hget.trans (get?_memberUnlessEmpty_cons key)] at hread
    exact Schema.forall_readsBack_of_readFields hread hnames halike

/-- The schema of undeclared properties is read back only if it is not written `false`. -/
theorem Schema.readsBack_of_readAdditional {additional found : Additional}
    (hget : Fields.get? written "additionalProperties" =
      Fields.get? additional.members "additionalProperties")
    (hread : Schema.readAdditional path written = .ok found)
    (halike : found.Alike (fun x y => (x == y) = true) additional) :
    ∀ value, additional = .schema value → value.ReadsBack ∧ value ≠ .ofKind .never := by
  rintro value rfl
  replace hget : Fields.get? written "additionalProperties" = some value.toJson := hget
  have hnever : value ≠ .ofKind .never := by
    rintro rfl
    rw [Schema.readAdditional_eq, hget] at hread
    cases hread
    cases halike
  refine ⟨?_, hnever⟩
  rw [Schema.readAdditional_eq, hget, Schema.toJson_eq hnever] at hread
  obtain ⟨schema, hschema, rfl⟩ := map_eq_ok_iff.mp hread
  cases halike with
  | schema heq =>
    rw [← Schema.toJson_eq hnever] at hschema
    exact .of_read hschema heq

theorem Schema.readsBack_of_readArray_listOf {item : Schema} {found : Kind}
    (hget : Fields.get? written "items" = some item.toJson)
    (hread : Schema.readArray path written = .ok found)
    (halike : found.Alike (fun x y => (x == y) = true) (.listOf item)) : item.ReadsBack := by
  rw [Schema.readArray_eq, hget] at hread
  split at hread
  · next hnone => cases hnone
  · obtain ⟨schemas, -, rfl⟩ := map_eq_ok_iff.mp hread
    cases halike
  · next value _ hvalue =>
    obtain rfl := Option.some.inj hvalue
    obtain ⟨schema, hschema, rfl⟩ := map_eq_ok_iff.mp hread
    cases halike with
    | listOf heq => exact .of_read hschema heq

theorem Schema.forall_readsBack_of_readArray_tuple {items : List Schema} {found : Kind}
    (hget : Fields.get? written "items" = some (.array (Schema.toJsonItems items)))
    (hread : Schema.readArray path written = .ok found)
    (halike : found.Alike (fun x y => (x == y) = true) (.tuple items)) :
    ∀ item ∈ items, item.ReadsBack := by
  rw [Schema.readArray_eq, hget] at hread
  obtain ⟨schemas, hschemas, rfl⟩ := map_eq_ok_iff.mp hread
  cases halike with
  | tuple halike => exact Schema.forall_readsBack_of_readItems hschemas halike

theorem ObjectSchema.readsBack_of_readObject {shape found : ObjectSchema}
    (hshows : Shows written (.object shape))
    (hmaps : ∀ map ∈ (Kind.object shape).maps, (Fields.keys map).Nodup)
    (hread : Schema.readObject path written = .ok found)
    (halike : found.Alike (fun x y => (x == y) = true) shape) :
    (∀ part ∈ shape.parts, part.ReadsBack) ∧
      ∀ value, shape.additional = .schema value → value ≠ .ofKind .never := by
  rw [Schema.readObject] at hread
  obtain ⟨properties, hproperties, hread⟩ := bind_eq_ok_iff.mp hread
  obtain ⟨required, -, hread⟩ := bind_eq_ok_iff.mp hread
  obtain ⟨additional, hadditional, hread⟩ := bind_eq_ok_iff.mp hread
  obtain ⟨patterns, hpatterns, hread⟩ := bind_eq_ok_iff.mp hread
  cases hread
  have hdeclared := Schema.forall_readsBack_of_readFieldsAt
    (hshows.get?_piece "properties" (by simp [ObjectSchema.pieces]) (by simp [Kind.claims])
      (by decide))
    hproperties (hmaps _ List.mem_cons_self) halike.properties
  have hmatched := Schema.forall_readsBack_of_readFieldsAt
    (hshows.get?_piece "patternProperties" (by simp [ObjectSchema.pieces]) (by simp [Kind.claims])
      (by decide))
    hpatterns (hmaps _ (List.mem_cons_of_mem _ List.mem_cons_self)) halike.patterns
  have hundeclared := Schema.readsBack_of_readAdditional
    (hshows.get?_piece "additionalProperties" (by simp [ObjectSchema.pieces]) (by simp [Kind.claims])
      (by decide))
    hadditional halike.additional
  exact ⟨ObjectSchema.forall_parts_iff.mpr ⟨hdeclared, fun value hvalue =>
      (hundeclared value hvalue).1, hmatched⟩, fun value hvalue => (hundeclared value hvalue).2⟩

/-- A shape beside the parts of an intersection would be one part more. -/
private theorem eq_empty_of_composedKind {base : Kind} {items parts : List Schema}
    (hlength : items.length = parts.length)
    (halike : (composedKind base (some items) []).Alike (fun x y => (x == y) = true)
      (.allOf parts)) :
    base = .empty ∧ List.Forall₂ (fun x y => (x == y) = true) items parts := by
  have hcomposed : composedKind base (some items) [] =
      .allOf ((if base.isEmpty then [] else [Schema.ofKind base]) ++ items) :=
    congrArg Kind.allOf (List.append_nil _)
  rw [hcomposed] at halike
  cases halike with
  | allOf halike =>
    have hlength' := halike.length_eq
    rw [List.length_append] at hlength'
    cases hempty : base.isEmpty with
    | true =>
      rw [hempty] at halike
      refine ⟨?_, halike⟩
      cases base <;> first | rfl | cases hempty
    | false =>
      rw [hempty] at hlength'
      simp at hlength'
      omega

/-- What is taken out of members is not among others that are equal to those left. -/
private theorem notMem_keys_of_taken {fields extra : Fields Json} {taken : List String}
    {key : String} (hnodup : (Fields.keys fields).Nodup)
    (heq : (Json.object (taken.foldl Fields.swapErase fields) == .object extra) = true)
    (hkey : key ∈ taken) : key ∉ Fields.keys extra := by
  intro hmem
  obtain ⟨kept, hget⟩ := Option.isSome_iff_exists.mp (Fields.contains_iff.mpr hmem)
  obtain ⟨value, hvalue, -⟩ := (Json.object_beq_iff.mp heq).get?_right
    (Fields.nodup_keys_foldl_swapErase hnodup _) hget
  exact ((Fields.get?_foldl_swapErase_eq_some_iff hnodup _).mp hvalue).1 hkey

/-! ### Following the reading of a schema -/

/-- Fields that show no composition are read as the shape beside it. -/
theorem Shows.read_of_base {kind : Kind} (hshows : Shows written kind) (hnever : kind ≠ .never)
    (hself : kind.base = kind) {found : Schema}
    (hread : Schema.read path (.object written) = .ok found) :
    ∃ taken, kind.readFrom path written = .ok (found.kind, taken) := by
  have hnone := hshows.readPartsAt_none hnever hself path
  rw [Schema.read_of_not_negated (hshows.negation hnever), hshows.readBody_eq hnever,
    hnone "allOf" (by decide), hnone "anyOf" (by decide), hnone "oneOf" (by decide)] at hread
  obtain ⟨⟨base, taken⟩, hbody, hread⟩ := bind_eq_ok_iff.mp hread
  cases hread
  exact ⟨taken, hbody⟩

namespace Schema.AsRead

variable (h : schema.AsRead)
include h

/-- A shape that is read back is read of parts that are. -/
private theorem of_read_of_base (hnever : schema.kind ≠ .never)
    (hself : schema.kind.base = schema.kind) {found : Schema}
    (hread : Schema.read path (.object (schema.head ++ schema.extra)) = .ok found)
    (halike : found.kind.Alike (fun x y => (x == y) = true) schema.kind) :
    schema.Unmistakable ∧ ∀ part ∈ schema.kind.parts, part.ReadsBack := by
  have hclaims := h.claims fun parts hparts => by
    rw [hparts] at hself
    cases hself
  have hshows := h.shows_written hclaims
  obtain ⟨taken, hbody⟩ := hshows.read_of_base hnever hself hread
  rw [Schema.Unmistakable]
  -- What was found is like the shape, so each part of it was read of what is written for its like.
  cases hkind : schema.kind with
  | enum type values =>
    rw [hkind] at hbody halike
    refine ⟨?_, List.forall_mem_nil _⟩
    obtain ⟨hfound, -⟩ := Prod.mk.inj (Except.ok.inj hbody)
    rw [← hfound] at halike
    generalize htype : type.or (Primitive.infer? values) = inferred at halike
    cases halike
    cases type with
    | none => exact .inr htype
    | some type => exact .inl (Option.some_ne_none type)
  | object shape =>
    rw [hkind] at hbody halike hshows
    obtain ⟨read, hobject, heq⟩ := map_eq_ok_iff.mp hbody
    rw [← (Prod.mk.inj heq).1] at halike
    cases halike with
    | object halike =>
      obtain ⟨hparts, hadditional⟩ :=
        ObjectSchema.readsBack_of_readObject hshows (hkind ▸ h.names.maps) hobject halike
      refine ⟨fun value hvalue => hadditional value ?_, hparts⟩
      cases hshape : shape.additional with
      | schema other =>
        rw [hshape] at hvalue
        exact congrArg Additional.schema (Option.some.inj hvalue)
      | _ =>
        rw [hshape] at hvalue
        cases hvalue
  | listOf item =>
    rw [hkind] at hbody halike hshows
    obtain ⟨kind, harray, heq⟩ := map_eq_ok_iff.mp hbody
    rw [← (Prod.mk.inj heq).1] at halike
    have hitem := Schema.readsBack_of_readArray_listOf
      (hshows.claims "items" (by simp [Kind.claims])) harray halike
    exact ⟨trivial, List.forall_mem_singleton.mpr hitem⟩
  | tuple items =>
    rw [hkind] at hbody halike hshows
    obtain ⟨kind, harray, heq⟩ := map_eq_ok_iff.mp hbody
    rw [← (Prod.mk.inj heq).1] at halike
    exact ⟨trivial, Schema.forall_readsBack_of_readArray_tuple
      (hshows.claims "items" (by simp [Kind.claims])) harray halike⟩
  | allOf parts =>
    rw [hkind] at hself
    cases hself
  | anyOf branches =>
    rw [hkind] at hself
    cases hself
  | _ => exact ⟨trivial, List.forall_mem_nil _⟩

/-- A union that is read back is read of branches that are. -/
private theorem of_read_of_union {branches : List Schema} (hkind : schema.kind = .anyOf branches)
    {found : Schema} (hread : Schema.read path (.object (schema.head ++ schema.extra)) = .ok found)
    (halike : found.kind.Alike (fun x y => (x == y) = true) schema.kind) :
    ∀ part ∈ branches, part.ReadsBack := by
  have hclaims := h.claims fun parts hparts => by
    rw [hparts] at hkind
    cases hkind
  have hshows := h.shows_written hclaims
  rw [hkind] at hshows halike
  have hget := fun key hkey =>
    hshows.claims key (Kind.compositions_subset_claims Kind.noConfusion hkey)
  rw [Schema.read_of_not_negated (hshows.negation Kind.noConfusion),
    hshows.readBody_eq Kind.noConfusion,
    Schema.readPartsAt_missing path (hget "allOf" (by decide)),
    Schema.readPartsAt_missing path (hget "oneOf" (by decide)),
    Schema.readPartsAt_eq, hget "anyOf" (by decide)] at hread
  obtain ⟨⟨base, taken⟩, hbody, hread⟩ := bind_eq_ok_iff.mp hread
  obtain ⟨rfl, rfl⟩ := Prod.mk.inj (Except.ok.inj hbody)
  obtain ⟨parts, hparts, hread⟩ := bind_eq_ok_iff.mp hread
  cases hparts
  obtain ⟨listed, hlisted, hread⟩ := bind_eq_ok_iff.mp hread
  obtain ⟨items, hitems, rfl⟩ := map_eq_ok_iff.mp hlisted
  cases hread
  cases halike with
  | anyOf halike => exact Schema.forall_readsBack_of_readItems hitems halike

/-- An intersection that is read back is read of parts that are, and of no shape beside them. -/
private theorem of_read_of_intersection {parts : List Schema} (hkind : schema.kind = .allOf parts)
    {found : Schema} (hread : Schema.read path (.object (schema.head ++ schema.extra)) = .ok found)
    (heq : (found == schema) = true) :
    (∀ key ∈ bodyKeywords, key ∉ Fields.keys schema.extra) ∧ ∀ part ∈ parts, part.ReadsBack := by
  have hnever : schema.kind ≠ .never := by
    rw [hkind]
    exact Kind.noConfusion
  have hmembers : Fields.get? schema.kind.members "not" = none := Kind.get?_not_members hnever
  have hnot : ∀ value ∈ Fields.get? (schema.head ++ schema.extra) "not",
      acceptsAnything value = false := by
    rw [Schema.get?_kept (by decide) hmembers]
    exact h.negation hnever
  have hwritten : ∀ key ∈ compositionKeywords, Fields.get? (schema.head ++ schema.extra) key =
      Fields.get? (Kind.allOf parts).members key := by
    intro key hkey
    rw [← hkind]
    refine Schema.get?_written ?_ (h.compositions hnever key hkey)
    revert key
    decide
  rw [Schema.read_of_not_negated hnot, Schema.readPartsAt_eq path _ "allOf",
    hwritten "allOf" (by decide), Schema.readPartsAt_missing path (hwritten "anyOf" (by decide)),
    Schema.readPartsAt_missing path (hwritten "oneOf" (by decide))] at hread
  obtain ⟨⟨base, taken⟩, hbody, hread⟩ := bind_eq_ok_iff.mp hread
  obtain ⟨listed, hlisted, hread⟩ := bind_eq_ok_iff.mp hread
  obtain ⟨items, hitems, rfl⟩ := map_eq_ok_iff.mp hlisted
  cases hread
  obtain ⟨-, -, halike, hextra⟩ := Schema.beq_iff.mp heq
  obtain ⟨rfl, halikes⟩ := eq_empty_of_composedKind (Schema.length_of_readItems hitems)
    (hkind ▸ halike)
  refine ⟨?_, Schema.forall_readsBack_of_readItems hitems halikes⟩
  obtain ⟨rfl, hfree⟩ : taken = ["type"] ∧ ∀ key ∈ bodyKeywords, key ≠ "type" →
      Fields.get? (schema.head ++ schema.extra) key = none := by
    cases ReadsBody.of_readBody hbody with
    | empty hfree => exact ⟨rfl, hfree⟩
  intro key hkey
  by_cases htype : key = "type"
  · -- A kept `type` would be taken, and would not be kept again.
    exact notMem_keys_of_taken h.nodup_written hextra (by simp [htype])
  · have hkept := hfree key hkey htype
    have hbodyKeyword : key ∈ shapeKeywords ∧ key ≠ "allOf" := by
      clear * - hkey
      revert key
      decide
    rw [Schema.get?_kept hbodyKeyword.1] at hkept
    · exact Fields.get?_eq_none_iff.mp hkept
    · rw [hkind, Kind.members, Fields.get?_cons, if_neg (Ne.symm hbodyKeyword.2)]
      rfl

/-- **What is read back is unmistakable, and its parts are read back.** -/
theorem of_readsBack (hback : schema.ReadsBack) :
    schema.Unmistakable ∧ ∀ part ∈ schema.kind.parts, part.ReadsBack := by
  by_cases hnever : schema.kind = .never
  · rw [Schema.Unmistakable, hnever]
    exact ⟨trivial, List.forall_mem_nil _⟩
  obtain ⟨found, hread, heq⟩ := hback "#"
  rw [h.toJson_eq_append (by rintro rfl; exact hnever rfl)] at hread
  have halike := (Schema.beq_iff.mp heq).2.2.1
  cases hkind : schema.kind with
  | allOf parts =>
    rw [Schema.Unmistakable, hkind]
    exact h.of_read_of_intersection hkind hread heq
  | anyOf branches =>
    rw [Schema.Unmistakable, hkind]
    exact ⟨trivial, h.of_read_of_union hkind hread halike⟩
  | never => exact absurd hkind hnever
  | _ => exact hkind ▸ h.of_read_of_base hnever (by rw [hkind]; rfl) hread halike

/-- **A schema is read back exactly when it is unmistakable and its parts are read back.** -/
theorem readsBack_iff :
    schema.ReadsBack ↔ schema.Unmistakable ∧ ∀ part ∈ schema.kind.parts, part.ReadsBack :=
  ⟨h.of_readsBack, fun ⟨hplain, hparts⟩ => h.readsBack hplain hparts⟩

end Schema.AsRead

/-! ### Reading what was written of a schema that was read -/

/-- What is read back at every depth. -/
theorem Schema.readsBack_iff_every (h : schema.Every Schema.AsRead) :
    schema.ReadsBack ↔ schema.Every Schema.Unmistakable := by
  induction h with
  | intro own _ ih =>
    rw [own.readsBack_iff, Schema.every_iff]
    exact and_congr_right fun _ => forall₂_congr ih

/-- **A schema that was read is read back**, wherever it stands, exactly when nothing in it is
written like something else: at no depth is there an enumeration of a stated type that is not
primitive and of values that share one, a schema of undeclared properties that accepts nothing
and says nothing else, or an intersection beside which keywords are kept that describe a
shape. -/
theorem Schema.ofJson_toJson_iff {value : Json} (hvalue : value.DistinctNames)
    (h : Schema.ofJson value path = .ok schema) (path' : String) :
    (∃ found, Schema.ofJson schema.toJson path' = .ok found ∧ (found == schema) = true) ↔
      schema.Every Schema.Unmistakable := by
  rw [← Schema.readsBack_iff_every (Schema.every_asRead hvalue h)]
  exact ⟨fun ⟨_, hread, heq⟩ => .of_read hread heq, fun hback => hback path'⟩

/-- Settings with a closed shape beside an intersection, and values of no common type. -/
def settingsValue : Json :=
  .object [("title", .string "Settings"), ("type", .string "object"),
    ("allOf", .array [.object [("$ref", .string "#/base")]]),
    ("properties", .object [("mode", .object [("type", .string "object"),
      ("enum", .array [.object [], .string "auto"])])]),
    ("required", .array [.string "mode", .string "mode"]),
    ("additionalProperties", .object [("description", .string "None."), ("not", .object [])])]

/-- The settings as they are read: the shape has become a part of the intersection. -/
def settingsSchema : Schema :=
  ⟨some "Settings", none, .allOf [.ofKind (.object
    ⟨[("mode", .ofKind (.enum none [.object [], .string "auto"]))], ["mode"],
      .schema ⟨none, some "None.", .never, []⟩, [], none⟩), .reference "#/base"], []⟩

/-- Settings that hold some of what could be taken for something else, and are read back. -/
theorem Schema.ofJson_toJson_iff_settings :
    Schema.ofJson settingsValue "#" = .ok settingsSchema ∧
      ∃ found, Schema.ofJson settingsSchema.toJson "#/settings" = .ok found ∧
        (found == settingsSchema) = true := by
  have hread : Schema.ofJson settingsValue "#" = .ok settingsSchema := by
    simp [settingsValue, Schema.ofJson, Schema.read, Schema.readBody, Schema.readPartsAt,
      Schema.readObject, Schema.readFieldsAt, Schema.readFields, Schema.readItems,
      Schema.readAdditional, takenText, describesObject, typeName?, acceptsAnything]
    rfl
  exact ⟨hread, (Schema.ofJson_toJson_iff (by decide) hread "#/settings").mpr (by decide)⟩

/-- An enumeration that states a type, undeclared properties that nothing satisfies, and an
intersection beside a constant and an enumeration, each with the schema that is read of it. -/
def mistakable : List (Json × Schema) :=
  [(.object [("type", .string "object"), ("enum", .array [.string "a"])],
      .ofKind (.enum none [.string "a"])),
    (.object [("type", .string "object"), ("additionalProperties", .object [("not", .object [])])],
      .ofKind (.object ⟨[], [], .schema (.ofKind .never), [], none⟩)),
    (.object [("const", .string "a"), ("enum", .array [.string "a", .string "b"]),
        ("allOf", .array [.object [("type", .string "string")]])],
      ⟨none, none, .allOf [.ofKind (.const (.string "a")), .ofKind (.primitive .string)],
        [("enum", .array [.string "a", .string "b"])]⟩)]

/-- None of these is read back. -/
theorem Schema.not_readBack_mistakable : mistakable.Forall fun entry =>
    Schema.ofJson entry.1 "#" = .ok entry.2 ∧
      ¬∃ found, Schema.ofJson entry.2.toJson "#" = .ok found ∧ (found == entry.2) = true := by
  have hread : ∀ entry ∈ mistakable, Schema.ofJson entry.1 "#" = .ok entry.2 := by
    simp [mistakable, Schema.ofJson, Schema.read, Schema.readBody, Schema.readPartsAt,
      Schema.readObject, Schema.readFieldsAt, Schema.readItems, Schema.readAdditional, takenText,
      describesObject, describesArray, typeName?, acceptsAnything]
    exact ⟨rfl, rfl, rfl⟩
  rw [List.forall_iff_forall_mem]
  intro entry hentry
  refine ⟨hread entry hentry, ?_⟩
  rintro ⟨found, hfound, heq⟩
  have hvalue : entry.1.DistinctNames := by
    clear * - hentry
    revert entry
    decide
  have hevery := (Schema.readsBack_iff_every (Schema.every_asRead hvalue (hread entry hentry))).mp
    (.of_read hfound heq)
  clear * - hentry hevery
  revert entry
  decide

end RpcSchema
