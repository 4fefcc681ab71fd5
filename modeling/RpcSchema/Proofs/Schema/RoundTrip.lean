import RpcSchema.Proofs.Schema.Equality
import RpcSchema.Proofs.Schema.Reading

/-!
# Schemas written and read back

A written schema reads back as an equal schema, if nothing in it is written like something
else: no kept keyword is named like one with a meaning, the type of an enumeration is
written or the values have none, no name is required twice, and undeclared properties are
not described by the schema that is written `false`.

A schema is read by looking keywords up, so that what is read of fields depends only on the
shape that they show.  The keywords that are read are then taken out; since these are the
written ones and no other, the kept keywords remain.

## Main definitions

* `Schema.ReadsBack` — the schema is read back, wherever it stands.

## Main results

* `Shows.readBody`, `Shows.read` — the shape that fields show is read from them.
* `Schema.AsRead.foldl_swapErase_written` — the kept keywords remain.
* `Schema.ofJson_toJson` — a written schema reads back as an equal schema.
-/

namespace RpcSchema

/-! ### Reading the parts -/

/-- A schema is read back, wherever it stands. -/
def Schema.ReadsBack (schema : Schema) : Prop :=
  ∀ path, ∃ found, Schema.read path schema.toJson = .ok found ∧ (found == schema) = true

/-- Schemas by position are read back. -/
theorem Schema.readItems_toJsonItems {items : List Schema}
    (h : ∀ item ∈ items, item.ReadsBack) (path : String) (index : Nat) :
    ∃ found, Schema.readItems path index (Schema.toJsonItems items) = .ok found ∧
      List.Forall₂ (fun x y => (x == y) = true) found items := by
  induction items generalizing index with
  | nil => exact ⟨[], by rw [Schema.toJsonItems, Schema.readItems], .nil⟩
  | cons item rest ih =>
    obtain ⟨first, hfirst, heq⟩ := h item (List.mem_cons_self ..) (path ++ "/" ++ toString index)
    obtain ⟨others, hothers, hrest⟩ :=
      ih (fun other hmem => h other (List.mem_cons_of_mem _ hmem)) (index + 1)
    refine ⟨first :: others, ?_, .cons heq hrest⟩
    rw [Schema.toJsonItems, Schema.readItems, hfirst, hothers]
    rfl

/-- Named schemas are read back. -/
theorem Schema.readFields_toJsonFields {fields : Fields Schema}
    (h : ∀ entry ∈ fields, entry.2.ReadsBack) (hnames : (Fields.keys fields).Nodup)
    (path : String) :
    ∃ found, Schema.readFields path (Schema.toJsonFields fields) = .ok found ∧
      Fields.Alike (fun x y => (x == y) = true) found fields := by
  induction fields with
  | nil =>
    exact ⟨[], by rw [Schema.toJsonFields, Schema.readFields], rfl,
      fun _ _ hmem => absurd hmem List.not_mem_nil⟩
  | cons entry rest ih =>
    obtain ⟨name, schema⟩ := entry
    obtain ⟨hname, hrest⟩ := List.nodup_cons.mp hnames
    obtain ⟨first, hfirst, heq⟩ := h (name, schema) (List.mem_cons_self ..) (path ++ "/" ++ name)
    obtain ⟨others, hothers, halike⟩ :=
      ih (fun other hmem => h other (List.mem_cons_of_mem _ hmem)) hrest
    refine ⟨(name, first) :: others, ?_, halike.cons heq hname⟩
    rw [Schema.toJsonFields, Schema.readFields, hfirst, hothers]
    rfl

/-! ### Reading an object shape -/

/-- Named schemas under a keyword that is left out when there are none. -/
theorem Schema.readFieldsAt_written {written : Fields Json} {fields : Fields Schema} {key : String}
    (h : ∀ entry ∈ fields, entry.2.ReadsBack) (hnames : (Fields.keys fields).Nodup) (path : String)
    (hget : Fields.get? written key =
      Fields.get? (memberUnlessEmpty key (Schema.toJsonFields fields)) key) :
    ∃ found, Schema.readFieldsAt path written key = .ok found ∧
      Fields.Alike (fun x y => (x == y) = true) found fields := by
  have hread := Schema.readFields_toJsonFields h hnames (path ++ "/" ++ key)
  cases fields with
  | nil =>
    rw [Schema.readFieldsAt]
    split
    · exact ⟨[], rfl, rfl, fun _ _ hmem => absurd hmem List.not_mem_nil⟩
    · next entries hsome => rw [hget] at hsome; cases hsome
    · next hsome => rw [hget] at hsome; cases hsome
  | cons entry rest =>
    have hsome := hget.trans (get?_memberUnlessEmpty_cons key)
    rw [Schema.readFieldsAt]
    split
    · next hnone => rw [hsome] at hnone; cases hnone
    · next entries hentries =>
      obtain rfl := Json.object.inj (Option.some.inj (hsome.symm.trans hentries))
      exact hread
    · next value hobject hvalue =>
      exact absurd (Option.some.inj (hvalue.symm.trans hsome)) (hobject _)

/-- Names that are required once are read one after the other. -/
theorem requiredNames_strings {path : String} {names seen : List String}
    (h : (seen ++ names).Nodup) :
    requiredNames path seen (names.map .string) = .ok (seen ++ names) := by
  induction names generalizing seen with
  | nil => rw [List.map_nil, requiredNames, List.append_nil]
  | cons name rest ih =>
    have hnew : ¬seen.contains name = true := by
      intro hmem
      have hseen : name ∈ seen := by simpa using hmem
      exact (List.nodup_append.mp h).2.2 name hseen name (List.mem_cons_self ..) rfl
    have hrest : ((seen ++ [name]) ++ rest).Nodup := by
      rwa [List.append_assoc, List.singleton_append]
    rw [List.map_cons, requiredNames, if_neg hnew, ih hrest, List.append_assoc,
      List.singleton_append]

theorem required?_requiredMember {path : String} {names : List String} (h : names.Nodup) :
    required? path (Fields.get? (requiredMember names) "required") = .ok names := by
  cases names with
  | nil => rfl
  | cons name rest => exact requiredNames_strings h

theorem Schema.readAdditional_written {written : Fields Json} {additional : Additional}
    (h : ∀ value, additional = .schema value → value.ReadsBack)
    (hnever : ∀ value ∈ additional.schema?, value ≠ .ofKind .never) (path : String)
    (hget : Fields.get? written "additionalProperties" =
      Fields.get? additional.members "additionalProperties") :
    ∃ found, Schema.readAdditional path written = .ok found ∧
      found.Alike (fun x y => (x == y) = true) additional := by
  rw [Schema.readAdditional]
  cases additional with
  | unstated =>
    split
    · exact ⟨_, rfl, .unstated⟩
    · next hsome => rw [hget] at hsome; cases hsome
    · next hsome => rw [hget] at hsome; cases hsome
  | allowed flag =>
    replace hget : Fields.get? written "additionalProperties" = some (.bool flag) := hget
    split
    · next hnone => rw [hget] at hnone; cases hnone
    · next other hother =>
      obtain rfl := Json.bool.inj (Option.some.inj (hget.symm.trans hother))
      exact ⟨_, rfl, .allowed flag⟩
    · next value hbool hvalue =>
      exact absurd (Option.some.inj (hvalue.symm.trans hget)) (hbool flag)
  | schema value =>
    replace hget : Fields.get? written "additionalProperties" = some value.toJson := hget
    have hobject := Schema.toJson_eq (hnever value rfl)
    obtain ⟨found, hfound, heq⟩ := h value rfl (path ++ "/additionalProperties")
    split
    · next hnone => rw [hget] at hnone; cases hnone
    · next flag hflag =>
      have hbool := Option.some.inj (hget.symm.trans hflag)
      rw [hobject] at hbool
      cases hbool
    · next other _ hother =>
      obtain rfl := Option.some.inj (hget.symm.trans hother)
      exact ⟨.schema found, by rw [hfound]; rfl, .schema heq⟩

/-- Under a keyword of an object shape stands what is written for it alone. -/
theorem Shows.get?_piece {written : Fields Json} {shape : ObjectSchema}
    (hshows : Shows written (.object shape)) (key : String) {piece : Fields Json}
    (hmem : (key, piece) ∈ shape.pieces) (hclaim : key ∈ (Kind.object shape).claims)
    (htype : key ≠ "type") :
    Fields.get? written key = Fields.get? piece key := by
  rw [hshows.claims key hclaim, ObjectSchema.get?_members hmem htype]

theorem ObjectSchema.readObject_written {written : Fields Json} {shape : ObjectSchema}
    (hparts : ∀ part ∈ shape.parts, part.ReadsBack)
    (hproperties : (Fields.keys shape.properties).Nodup)
    (hpatterns : (Fields.keys shape.patterns).Nodup) (hrequired : shape.required.Nodup)
    (hnever : ∀ value ∈ shape.additional.schema?, value ≠ .ofKind .never) (path : String)
    (hshows : Shows written (.object shape)) :
    ∃ found, Schema.readObject path written = .ok found ∧
      found.Alike (fun x y => (x == y) = true) shape := by
  obtain ⟨hfields, hadditional, hmatched⟩ := ObjectSchema.forall_parts_iff.mp hparts
  obtain ⟨properties, hreadProperties, halikeProperties⟩ :=
    Schema.readFieldsAt_written hfields hproperties path
      (hshows.get?_piece "properties" (by simp [ObjectSchema.pieces]) (by simp [Kind.claims])
        (by decide))
  obtain ⟨patterns, hreadPatterns, halikePatterns⟩ :=
    Schema.readFieldsAt_written hmatched hpatterns path
      (hshows.get?_piece "patternProperties" (by simp [ObjectSchema.pieces]) (by simp [Kind.claims])
        (by decide))
  obtain ⟨additional, hreadAdditional, halikeAdditional⟩ :=
    Schema.readAdditional_written hadditional hnever path
      (hshows.get?_piece "additionalProperties" (by simp [ObjectSchema.pieces]) (by simp [Kind.claims])
        (by decide))
  have hreadRequired : required? path (Fields.get? written "required") = .ok shape.required := by
    have hmem : ("required", requiredMember shape.required) ∈ shape.pieces := by
      simp [ObjectSchema.pieces]
    rw [hshows.get?_piece "required" hmem (by simp [Kind.claims]) (by decide)]
    exact required?_requiredMember hrequired
  have hreadNames : listedNames? written = shape.names := hshows.names shape rfl
  refine ⟨⟨properties, shape.required, additional, patterns, shape.names⟩, ?_,
    halikeProperties, rfl, halikeAdditional, halikePatterns, rfl⟩
  rw [Schema.readObject, hreadProperties, hreadRequired, hreadAdditional, hreadPatterns, hreadNames]
  rfl

/-! ### Reading an array shape -/

theorem Schema.readArray_list {written : Fields Json} (path : String)
    (hget : Fields.get? written "items" = none) : Schema.readArray path written = .ok .list := by
  rw [Schema.readArray]
  split
  · rfl
  · next hsome => rw [hget] at hsome; cases hsome
  · next hsome => rw [hget] at hsome; cases hsome

theorem Schema.readArray_listOf {written : Fields Json} {item : Schema} (h : item.ReadsBack)
    (path : String) (hget : Fields.get? written "items" = some item.toJson) :
    ∃ found, Schema.readArray path written = .ok (.listOf found) ∧ (found == item) = true := by
  obtain ⟨found, hfound, heq⟩ := h (path ++ "/items")
  refine ⟨found, ?_, heq⟩
  have hnotArray : ∀ values, item.toJson ≠ .array values := by
    intro values harray
    by_cases hnever : item = .ofKind .never
    · rw [hnever] at harray
      cases harray
    · rw [Schema.toJson_eq hnever] at harray
      cases harray
  rw [Schema.readArray]
  split
  · next hnone => rw [hget] at hnone; cases hnone
  · next values hvalues => exact absurd (Option.some.inj (hget.symm.trans hvalues)) (hnotArray _)
  · next value _ hvalue =>
    obtain rfl := Option.some.inj (hget.symm.trans hvalue)
    rw [hfound]
    rfl

theorem Schema.readArray_tuple {written : Fields Json} {items : List Schema}
    (h : ∀ item ∈ items, item.ReadsBack) (path : String)
    (hget : Fields.get? written "items" = some (.array (Schema.toJsonItems items))) :
    ∃ found, Schema.readArray path written = .ok (.tuple found) ∧
      List.Forall₂ (fun x y => (x == y) = true) found items := by
  obtain ⟨found, hfound, heq⟩ := Schema.readItems_toJsonItems h (path ++ "/items") 0
  refine ⟨found, ?_, heq⟩
  rw [Schema.readArray]
  split
  · next hnone => rw [hget] at hnone; cases hnone
  · next values hvalues =>
    obtain rfl := Json.array.inj (Option.some.inj (hget.symm.trans hvalues))
    rw [hfound]
    rfl
  · next value harray hvalue =>
    exact absurd (Option.some.inj (hvalue.symm.trans hget)) (harray _)

/-! ### Reading the shape -/

section Body

variable {written : Fields Json}

/-- A stated type decides between an object, an array and a primitive type. -/
theorem Schema.readBody_typed {name : String} (path : String)
    (href : Fields.get? written "$ref" = none) (hconst : Fields.get? written "const" = none)
    (htype : Fields.get? written "type" = some (.string name))
    (henum : Fields.get? written "enum" = none) :
    Schema.readBody path written =
      if name = "object" then (Schema.readObject path written).map fun object =>
        (.object object, ["type", "properties", "required", "additionalProperties",
          "patternProperties"] ++ if object.names.isSome then ["propertyNames"] else [])
      else if name = "array" then
        (Schema.readArray path written).map fun kind => (kind, ["type", "items"])
      else (scalarKind path (some name)).map fun kind => (kind, ["type"]) := by
  rw [Schema.readBody, href, hconst, htype, henum]
  change (if decide (name = "object") = true then _ else if decide (name = "array") = true
    then _ else _) = _
  simp only [decide_eq_true_iff]
  rfl

/-- How a shape is read from fields that show it, beside the composition keywords. -/
def Kind.readFrom (path : String) (written : Fields Json) :
    Kind → SchemaReading (Kind × List String)
  | .ref reference => .ok (.ref reference, ["$ref"])
  | .const value => .ok (.const value, ["const", "type"])
  | .enum type values => .ok (.enum (type.or (Primitive.infer? values)) values, ["type", "enum"])
  | .object _ => (Schema.readObject path written).map fun object =>
      (.object object, ["type", "properties", "required", "additionalProperties",
        "patternProperties"] ++ if object.names.isSome then ["propertyNames"] else [])
  | .list | .listOf _ | .tuple _ =>
    (Schema.readArray path written).map fun kind => (kind, ["type", "items"])
  | .primitive type => .ok (.primitive type, ["type"])
  | .allOf _ | .anyOf _ | .empty | .never => .ok (.empty, ["type"])

theorem Shows.readBody_eq {kind : Kind} (hshows : Shows written kind) (hnever : kind ≠ .never)
    (path : String) : Schema.readBody path written = kind.readFrom path written := by
  have hclaims := hshows.claims
  have hempty : (∀ key ∈ bodyKeywords, Fields.get? written key = none) →
      Schema.readBody path written = .ok (.empty, ["type"]) := by
    refine fun hfree => Schema.readBody_empty path fun key hkey hcomposition => hfree key ?_
    revert key
    decide
  -- The keywords are looked for in order; those before its own a shape claims without having them.
  cases kind with
  | ref reference =>
    rw [Schema.readBody, hclaims "$ref" (by simp [Kind.claims])]
    rfl
  | const value =>
    rw [Schema.readBody, hclaims "$ref" (by simp [Kind.claims]),
      hclaims "const" (by simp [Kind.claims])]
    rfl
  | enum type values =>
    rw [Schema.readBody, hclaims "$ref" (by simp [Kind.claims]),
      hclaims "const" (by simp [Kind.claims]), hclaims "type" (by simp [Kind.claims]),
      hclaims "enum" (by simp [Kind.claims])]
    cases type with
    | none => rfl
    | some p =>
      change (Except.ok (Kind.enum (Primitive.ofName? p.name) values, _) : SchemaReading _) = _
      rw [Primitive.ofName?_name]
      rfl
  | object shape =>
    have hfree : ∀ key, key ≠ "type" → key ∉ objectKeywords → key ∈ (Kind.object shape).claims →
        Fields.get? written key = none := fun key hkey hother hclaim =>
      (hclaims key hclaim).trans (Kind.get?_object_members_of_notMem hkey hother)
    rw [Schema.readBody_typed path (hfree "$ref" (by decide) (by decide) (by simp [Kind.claims]))
      (hfree "const" (by decide) (by decide) (by simp [Kind.claims]))
      (hclaims "type" (by simp [Kind.claims]))
      (hfree "enum" (by decide) (by decide) (by simp [Kind.claims])), if_pos rfl]
    rfl
  | list | listOf item | tuple items =>
    rw [Schema.readBody_typed path (hclaims "$ref" (by simp [Kind.claims]))
      (hclaims "const" (by simp [Kind.claims])) (hclaims "type" (by simp [Kind.claims]))
      (hclaims "enum" (by simp [Kind.claims])), if_neg (by decide), if_pos rfl]
    rfl
  | primitive p =>
    have hscalar : scalarKind path (some p.name) = .ok (.primitive p) := by
      rw [scalarKind, Primitive.ofName?_name]
    rw [Schema.readBody_typed path (hclaims "$ref" (by simp [Kind.claims]))
      (hclaims "const" (by simp [Kind.claims])) (hclaims "type" (by simp [Kind.claims]))
      (hclaims "enum" (by simp [Kind.claims])), if_neg (by cases p <;> decide),
      if_neg (by cases p <;> decide), hscalar]
    rfl
  | allOf parts =>
    refine hempty fun key hkey => (hclaims key (List.mem_append_right _ hkey)).trans ?_
    refine Fields.get?_eq_none_iff.mpr fun hmem => ?_
    obtain rfl : key = "allOf" := List.mem_singleton.mp hmem
    exact absurd hkey (by decide)
  | anyOf branches =>
    refine hempty fun key hkey => (hclaims key (List.mem_append_right _ hkey)).trans ?_
    refine Fields.get?_eq_none_iff.mpr fun hmem => ?_
    obtain rfl : key = "anyOf" := List.mem_singleton.mp hmem
    exact absurd hkey (by decide)
  | empty => exact hempty fun key hkey => hclaims key (List.mem_append_right _ hkey)
  | never => exact absurd rfl hnever

/-- **The shape that fields show is read from them**, beside the composition keywords, and
the keywords it takes are those that are written and others on which it has a claim. -/
theorem Shows.readBody {schema : Schema} (h : schema.AsRead) (hplain : schema.Unmistakable)
    (hshows : Shows written schema.kind) (hparts : ∀ part ∈ schema.kind.parts, part.ReadsBack)
    (hnever : schema.kind ≠ .never) (path : String) :
    ∃ found taken, Schema.readBody path written = .ok (found, taken) ∧
      found.Alike (fun x y => (x == y) = true) schema.kind.base ∧
        Fields.keys schema.kind.members ⊆ compositionKeywords ++ taken ∧
          taken ⊆ schema.kind.claims := by
  rw [hshows.readBody_eq hnever]
  rw [Schema.Unmistakable] at hplain
  cases hkind : schema.kind with
  | ref reference =>
    exact ⟨_, _, rfl, .ref reference, by simp [Kind.members], by simp [Kind.claims]⟩
  | const value =>
    have hvalue : value.DistinctNames :=
      h.names.literals value (by rw [hkind]; exact List.mem_singleton_self _)
    exact ⟨_, _, rfl, .const (Json.beq_self hvalue), by simp [Kind.members], by simp [Kind.claims]⟩
  | enum type values =>
    rw [hkind] at hplain
    have hvalues : ∀ value ∈ values, (value == value) = true := fun value hmem =>
      Json.beq_self (h.names.literals value (by rw [hkind]; exact hmem))
    -- Without a type of its own it is read with the one its values suggest, and they suggest none.
    have htype : type.or (Primitive.infer? values) = type := by
      cases type with
      | none => exact Or.resolve_left hplain fun h => h rfl
      | some p => rfl
    refine ⟨_, _, rfl, htype.symm ▸ .enum type (List.forall₂_same.mpr hvalues), ?_,
      by simp [Kind.claims]⟩
    cases type <;> simp [Kind.members, enumTypeMember, typeMember]
  | object shape =>
    rw [hkind] at hplain hshows hparts
    obtain ⟨found, hfound, halike⟩ := ObjectSchema.readObject_written hparts
      (h.names.nodup_properties hkind) (h.names.nodup_patterns hkind) (h.object shape hkind).1
      hplain path hshows
    refine ⟨_, _, by rw [Kind.readFrom, hfound]; rfl, .object halike, ?_, ?_⟩
    · rw [halike.names, Kind.members, Fields.keys_cons]
      refine List.cons_subset.mpr ⟨by simp, fun key hkey => ?_⟩
      exact List.mem_append_right _ (List.mem_cons_of_mem _ (shape.keys_members_subset hkey))
    · rw [halike.names, Kind.claims]
      intro key hkey
      simp only [List.mem_append, List.mem_cons] at hkey ⊢
      tauto
  | list =>
    rw [hkind] at hshows
    refine ⟨.list, ["type", "items"], ?_, .list, by simp [Kind.members], by simp [Kind.claims]⟩
    rw [Kind.readFrom, Schema.readArray_list path (hshows.claims "items" (by simp [Kind.claims]))]
    rfl
  | listOf item =>
    rw [hkind] at hshows hparts
    obtain ⟨found, hfound, heq⟩ := Schema.readArray_listOf (hparts item (List.mem_singleton_self _))
      path (hshows.claims "items" (by simp [Kind.claims]))
    exact ⟨_, _, by rw [Kind.readFrom, hfound]; rfl, .listOf heq, by simp [Kind.members],
      by simp [Kind.claims]⟩
  | tuple items =>
    rw [hkind] at hshows hparts
    obtain ⟨found, hfound, heq⟩ :=
      Schema.readArray_tuple hparts path (hshows.claims "items" (by simp [Kind.claims]))
    exact ⟨_, _, by rw [Kind.readFrom, hfound]; rfl, .tuple heq, by simp [Kind.members],
      by simp [Kind.claims]⟩
  | primitive p =>
    exact ⟨_, _, rfl, .primitive p, by simp [Kind.members, typeMember], by simp [Kind.claims]⟩
  | allOf _ | anyOf _ | empty =>
    exact ⟨_, _, rfl, .empty, by simp [Kind.members, compositionKeywords],
      by simp [Kind.claims, bodyKeywords]⟩
  | never => exact absurd hkind hnever

/-! ### Reading the compositions -/

theorem Schema.readPartsAt_written {key : String} {items : List Schema}
    (h : ∀ item ∈ items, item.ReadsBack) (path : String)
    (hget : Fields.get? written key = some (.array (Schema.toJsonItems items))) :
    ∃ found, Schema.readPartsAt path written key = .ok (some found) ∧
      List.Forall₂ (fun x y => (x == y) = true) found items := by
  obtain ⟨found, hfound, heq⟩ := Schema.readItems_toJsonItems h (path ++ "/" ++ key) 0
  refine ⟨found, ?_, heq⟩
  rw [Schema.readPartsAt]
  split
  · next hnone => rw [hget] at hnone; cases hnone
  · next values hvalues =>
    obtain rfl := Json.array.inj (Option.some.inj (hget.symm.trans hvalues))
    rw [hfound]
    rfl
  · next value harray hvalue =>
    exact absurd (Option.some.inj (hvalue.symm.trans hget)) (harray _)

/-- Fields that show no composition have none. -/
theorem Shows.readPartsAt_none {kind : Kind} (hshows : Shows written kind) (hnever : kind ≠ .never)
    (hself : kind.base = kind) (path : String) :
    ∀ key ∈ compositionKeywords, Schema.readPartsAt path written key = .ok none := by
  intro key hkey
  refine Schema.readPartsAt_missing path ?_
  rw [hshows.claims key (Kind.compositions_subset_claims hnever hkey)]
  exact Kind.get?_members_composition hself hkey

/-- The composition that fields show is read from them. -/
theorem Shows.readPartsAt {kind base : Kind} (hshows : Shows written kind) (hnever : kind ≠ .never)
    (hparts : ∀ part ∈ kind.parts, part.ReadsBack)
    (hbase : base.Alike (fun x y => (x == y) = true) kind.base) (path : String) :
    ∃ parts branches, Schema.readPartsAt path written "allOf" = .ok parts ∧
      Schema.readPartsAt path written "anyOf" = .ok branches ∧
        Schema.readPartsAt path written "oneOf" = .ok none ∧
          Kind.Alike (fun x y => (x == y) = true)
            (if parts.isNone && (branches.toList ++ []).isEmpty then base
              else composedKind base parts ((branches.toList ++ []).map .anyOf)) kind := by
  have hclaims : ∀ key ∈ compositionKeywords,
      Fields.get? written key = Fields.get? kind.members key :=
    fun key hkey => hshows.claims key (Kind.compositions_subset_claims hnever hkey)
  have hallOf := hclaims "allOf" (by decide)
  have hanyOf := hclaims "anyOf" (by decide)
  have honeOf := hclaims "oneOf" (by decide)
  have hplain : kind.base = kind → ∃ parts branches,
      Schema.readPartsAt path written "allOf" = .ok parts ∧
        Schema.readPartsAt path written "anyOf" = .ok branches ∧
          Schema.readPartsAt path written "oneOf" = .ok none ∧
            Kind.Alike (fun x y => (x == y) = true)
              (if parts.isNone && (branches.toList ++ []).isEmpty then base
                else composedKind base parts ((branches.toList ++ []).map .anyOf)) kind := by
    intro hself
    have hnone := hshows.readPartsAt_none hnever hself path
    exact ⟨none, none, hnone "allOf" (by decide), hnone "anyOf" (by decide),
      hnone "oneOf" (by decide), hself ▸ hbase⟩
  -- Only an intersection and a union write a composition; the other shapes are their own base.
  cases kind with
  | allOf parts =>
    obtain ⟨found, hfound, heq⟩ := Schema.readPartsAt_written hparts path hallOf
    refine ⟨some found, none, hfound, Schema.readPartsAt_missing path hanyOf,
      Schema.readPartsAt_missing path honeOf, ?_⟩
    cases hbase
    have hcomposed : composedKind .empty (some found) [] = .allOf found :=
      congrArg Kind.allOf (List.append_nil found)
    exact hcomposed ▸ .allOf heq
  | anyOf branches =>
    obtain ⟨found, hfound, heq⟩ := Schema.readPartsAt_written hparts path hanyOf
    refine ⟨none, some found, Schema.readPartsAt_missing path hallOf, hfound,
      Schema.readPartsAt_missing path honeOf, ?_⟩
    cases hbase
    exact .anyOf heq
  | _ => exact hplain rfl

/-- **The schema that fields show is read from them.**  The keywords it takes are those that
are written of its shape, and others on which the shape has a claim. -/
theorem Shows.read {schema : Schema} (h : schema.AsRead) (hplain : schema.Unmistakable)
    (hshows : Shows written schema.kind) (hparts : ∀ part ∈ schema.kind.parts, part.ReadsBack)
    (path : String) :
    ∃ kind taken, Schema.read path (.object written) =
        .ok ⟨(Fields.get? written "title").bind Json.string?,
          (Fields.get? written "description").bind Json.string?, kind,
          (takenText written "title" ++ takenText written "description" ++ taken).foldl
            Fields.swapErase written⟩ ∧
      kind.Alike (fun x y => (x == y) = true) schema.kind ∧
        Fields.keys schema.kind.members ⊆ taken ∧ taken ⊆ schema.kind.claims := by
  by_cases hnever : schema.kind = .never
  · have hnot := hshows.claims "not" (by rw [hnever]; decide)
    rw [hnever] at hnot ⊢
    refine ⟨.never, ["not"], ?_, .never, by simp [Kind.members], by simp [Kind.claims]⟩
    rw [Schema.read, hnot]
    rfl
  · obtain ⟨base, taken, hbody, hbase, hwritten, htaken⟩ :=
      hshows.readBody h hplain hparts hnever path
    obtain ⟨parts, branches, hallOf, hanyOf, honeOf, halike⟩ :=
      hshows.readPartsAt hnever hparts hbase path
    refine ⟨_, compositionKeywords ++ taken, ?_, halike, hwritten,
      List.append_subset.mpr ⟨Kind.compositions_subset_claims hnever, htaken⟩⟩
    rw [Schema.read_of_not_negated (hshows.negation hnever), hbody, hallOf, hanyOf, honeOf]
    rfl

end Body

/-! ### Reading back -/

/-- The texts that are taken out of a written schema are those that it has. -/
theorem takenText_eq_keys {written : Fields Json} {name : String} {text : Option String}
    (h : (Fields.get? written name).bind Json.string? = text) :
    takenText written name = Fields.keys (textMember name text) := by
  rw [takenText, h]
  cases text <;> rfl

/-- What is left of a written schema is what was kept. -/
theorem Schema.AsRead.foldl_swapErase_written {schema : Schema} (h : schema.AsRead)
    (taken : List String) (hwritten : Fields.keys schema.head ⊆ taken)
    (hfree : ∀ key ∈ taken, key ∉ Fields.keys schema.extra) :
    (taken.foldl Fields.swapErase (schema.head ++ schema.extra)).Perm schema.extra := by
  have hhead : schema.head.filter (fun entry => entry.1 ∉ taken) = [] := by
    rw [List.filter_eq_nil_iff]
    intro entry hmem
    simpa using hwritten (List.mem_map_of_mem hmem)
  have hextra : schema.extra.filter (fun entry => entry.1 ∉ taken) = schema.extra := by
    rw [List.filter_eq_self]
    intro entry hmem
    exact decide_eq_true fun htaken => hfree entry.1 htaken (List.mem_map_of_mem hmem)
  have hperm := Fields.foldl_swapErase_perm h.nodup_written taken
  rwa [List.filter_append, hhead, hextra, List.nil_append] at hperm

/-- **An unmistakable schema is read back when its parts are.** -/
theorem Schema.AsRead.readsBack {schema : Schema} (h : schema.AsRead)
    (hplain : schema.Unmistakable) (hparts : ∀ part ∈ schema.kind.parts, part.ReadsBack) :
    schema.ReadsBack := by
  intro path
  by_cases hnever : schema = .ofKind .never
  · exact ⟨.ofKind .never, by rw [hnever, Schema.ofKind, Schema.toJson, Schema.read]; rfl,
      by rw [hnever]; decide⟩
  have hclaims := h.notMem_extra_of_claims hplain
  obtain ⟨kind, taken, hread, halike, hwritten, htaken⟩ :=
    (h.shows_written hclaims).read h hplain hparts path
  rw [takenText_eq_keys h.get?_title_written, takenText_eq_keys h.get?_description_written] at hread
  have hperm := h.foldl_swapErase_written
    (Fields.keys (textMember "title" schema.title)
      ++ Fields.keys (textMember "description" schema.description) ++ taken)
    (by
      rw [Schema.head, Fields.keys_append, Fields.keys_append]
      exact List.append_subset.mpr ⟨List.subset_append_left _ _,
        List.subset_append_of_subset_right _ hwritten⟩)
    (by
      intro key hkey
      rw [List.mem_append] at hkey
      rcases hkey with hkey | hkey
      · refine h.notMem_extra_of_head ?_
        rw [Schema.head, Fields.keys_append, Fields.keys_append]
        exact List.mem_append_left _ hkey
      · exact hclaims key (htaken hkey))
  refine ⟨_, by rw [h.toJson_eq_append hnever, hread], ?_⟩
  rw [Schema.beq_iff]
  refine ⟨h.get?_title_written, h.get?_description_written, halike,
    Json.object_beq_iff.mpr (Fields.Alike.of_perm hperm ?_ ?_)⟩
  · exact (hperm.map Prod.fst).nodup_iff.mpr h.names.nodup_extra
  · intro name value hmem
    exact Json.beq_self ((Json.everyObject_object_iff.mp h.names.extra).2 name value
      (hperm.mem_iff.mp hmem))

/-- A schema is read back when its parts are. -/
theorem Schema.ReadsBack.of_parts {schema : Schema} (hnames : schema.NamesApart)
    (hplain : schema.Plainspoken) (hparts : ∀ part ∈ schema.kind.parts, part.ReadsBack) :
    schema.ReadsBack :=
  (hplain.asRead hnames).readsBack hplain.unmistakable hparts

/-- **A written schema reads back** as an equal schema, wherever it stands, when nothing in
it is written like something else. -/
theorem Schema.ofJson_toJson {schema : Schema} (hnames : schema.DistinctNames)
    (hplain : schema.Every Schema.Plainspoken) (path : String) :
    ∃ found, Schema.ofJson schema.toJson path = .ok found ∧ (found == schema) = true := by
  have hreads : schema.ReadsBack := by
    induction hnames with
    | intro own _ ih =>
      exact .of_parts own hplain.own fun part hpart => ih part hpart (hplain.parts part hpart)
  exact hreads path

/-- A closed object with a tuple, a union and a kept keyword reads back. -/
theorem Schema.ofJson_toJson_account :
    let account : Schema := ⟨some "Account", none, .object
      ⟨[("id", .ofKind (.enum none [.string "a", .number (.int 1)])),
        ("range", .ofKind (.tuple [.ofKind (.primitive .integer), .ofKind .never])),
        ("owner", ⟨none, some "Who holds it.", .anyOf [.reference "#/$defs/Owner",
          .ofKind (.const .null)], [("deprecated", .bool true)]⟩)],
        ["id", "owner"], .schema (.ofKind (.allOf [.ofKind (.listOf (.ofKind .empty))])),
        [("^x-", .ofKind .list)], some ["id", "range", "owner", "x-note"]⟩,
      [("examples", .array []), ("$comment", .string "kept")]⟩
    ∃ found, Schema.ofJson account.toJson "#" = .ok found ∧ (found == account) = true :=
  Schema.ofJson_toJson (by decide) (by decide) "#"

end RpcSchema
