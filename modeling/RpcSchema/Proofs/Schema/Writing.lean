import RpcSchema.Proofs.Schema.Parts
import RpcSchema.Schema.OfJson
import RpcSchema.Schema.ToJson

/-!
# The keywords of a written schema

A schema is written with its title and description first, then the keywords of its shape,
then the keywords that were kept.  Each keyword is written at most once, in a fixed order,
so that looking one up in a written schema finds what was written of it and nothing else.

A shape has a claim on some keywords: those that it is read from, and those that are read
before them.  Beside a reference, say, a kept `type` does no harm, because the reference is
read first; beside an enumeration it would be taken for the type of the values.

## Main definitions

* `shapeKeywords`, `schemaKeywords` — the keywords with a meaning.
* `Schema.Plainspoken` — nothing in the schema itself is written like something else.
* `Kind.claims` — the keywords on which a shape has a claim.
* `Schema.AsRead` — the kept keywords are no others than reading leaves.
* `Schema.Unmistakable` — what is written of the schema itself is read as what it is.
* `Schema.head` — what is written before the kept keywords.
* `Shows fields kind` — the fields have the keywords of a shape, and none that are read in
  their place.

## Main results

* `Kind.keys_members_sublist` — the keywords of a shape, in their order.
* `Schema.AsRead.toJson_eq_append` — the kept keywords stand behind the others.
* `Schema.AsRead.shows_written` — a written schema shows its shape.
-/

namespace RpcSchema

/-! ### Keywords with a meaning -/

/-- The keywords that decide the shape of a schema. -/
def shapeKeywords : List String :=
  ["not", "allOf", "anyOf", "oneOf", "$ref", "const", "type", "enum", "properties", "required",
    "additionalProperties", "patternProperties", "propertyNames", "items"]

/-- The keywords with a meaning. -/
def schemaKeywords : List String := "title" :: "description" :: shapeKeywords

/-- Whether the schema accepts nothing and says nothing else. -/
def Schema.isBareNever : Schema → Bool
  | ⟨none, none, .never, []⟩ => true
  | _ => false

theorem Schema.isBareNever_iff {schema : Schema} :
    schema.isBareNever = true ↔ schema = .ofKind .never := by
  constructor
  · intro h
    unfold Schema.isBareNever at h
    split at h
    · rfl
    · cases h
  · rintro rfl
    rfl

instance (schema : Schema) : Decidable (schema = .ofKind .never) :=
  decidable_of_iff _ Schema.isBareNever_iff

/-- Nothing in the shape itself is written like something else: an enumeration states its
type or has none, no name is required twice, and the schema of undeclared properties is not
written `false`. -/
def Kind.Plainspoken : Kind → Prop
  | .enum type values => type ≠ none ∨ Primitive.infer? values = none
  | .object shape =>
    shape.required.Nodup ∧ ∀ value ∈ shape.additional.schema?, value ≠ .ofKind .never
  | _ => True

/-- Nothing in the schema itself is written like something else. -/
structure Schema.Plainspoken (schema : Schema) : Prop where
  extra : ∀ key ∈ schemaKeywords, key ∉ Fields.keys schema.extra
  kind : schema.kind.Plainspoken

instance : DecidablePred Kind.Plainspoken := fun kind =>
  match kind with
  | .enum type values => inferInstanceAs (Decidable (type ≠ none ∨ Primitive.infer? values = none))
  | .object shape => inferInstanceAs
      (Decidable (shape.required.Nodup ∧ ∀ value ∈ shape.additional.schema?, value ≠ .ofKind .never))
  | .ref _ | .const _ | .list | .listOf _ | .tuple _ | .allOf _ | .anyOf _ | .primitive _ | .empty
  | .never => inferInstanceAs (Decidable True)

instance : DecidablePred Schema.Plainspoken := fun schema =>
  decidable_of_iff ((∀ key ∈ schemaKeywords, key ∉ Fields.keys schema.extra) ∧
    schema.kind.Plainspoken) ⟨fun ⟨extra, kind⟩ => ⟨extra, kind⟩, fun h => ⟨h.extra, h.kind⟩⟩

/-! ### Kept keywords -/

/-- The keywords of compositions. -/
def compositionKeywords : List String := ["allOf", "anyOf", "oneOf"]

/-- The keywords that describe a shape beside the compositions. -/
def bodyKeywords : List String :=
  ["$ref", "const", "type", "enum", "properties", "required", "additionalProperties",
    "patternProperties", "propertyNames", "items"]

/-- The keywords on which a shape has a claim: those that it is read from, and those that are
read before them. -/
def Kind.claims : Kind → List String
  | .never => ["not"]
  | .ref _ => compositionKeywords ++ ["$ref"]
  | .const _ => compositionKeywords ++ ["$ref", "const", "type"]
  | .enum _ _ => compositionKeywords ++ ["$ref", "const", "type", "enum"]
  | .object shape =>
    compositionKeywords ++ ["$ref", "const", "type", "enum", "properties", "required",
      "additionalProperties", "patternProperties"]
      ++ if shape.names.isSome then ["propertyNames"] else []
  | .list | .listOf _ | .tuple _ =>
    compositionKeywords ++ ["$ref", "const", "type", "enum", "items"]
  | .primitive _ => compositionKeywords ++ ["$ref", "const", "type", "enum"]
  | .allOf _ | .anyOf _ | .empty => compositionKeywords ++ bodyKeywords

/-- The kept keywords are no others than reading leaves: no keyword on which the shape has a
claim.  Beside an intersection any keyword may be left that one of its parts was read in
preference to. -/
structure Schema.AsRead (schema : Schema) : Prop where
  names : schema.NamesApart
  /-- A title is kept only if it is no text, and there is no other. -/
  title : ∀ kept ∈ Fields.get? schema.extra "title", schema.title = none ∧ kept.string? = none
  description : ∀ kept ∈ Fields.get? schema.extra "description",
    schema.description = none ∧ kept.string? = none
  negation : schema.kind ≠ .never →
    ∀ kept ∈ Fields.get? schema.extra "not", acceptsAnything kept = false
  compositions : schema.kind ≠ .never →
    ∀ key ∈ compositionKeywords, key ∉ Fields.keys schema.extra
  claims : (∀ parts, schema.kind ≠ .allOf parts) →
    ∀ key ∈ schema.kind.claims, key ∉ Fields.keys schema.extra
  object : ∀ shape, schema.kind = .object shape →
    shape.required.Nodup ∧ (shape.names = none → listedNames? schema.extra = none)

/-- What is written of the schema itself is read as what it is, and not

* as an enumeration of a type, when it is one of values that share a type without having it,
* as an object that is closed, when its undeclared properties have the schema written `false`,
* as one part more of an intersection, when keywords that describe a shape are kept beside it. -/
def Schema.Unmistakable (schema : Schema) : Prop :=
  match schema.kind with
  | .enum type values => type ≠ none ∨ Primitive.infer? values = none
  | .object shape => ∀ value ∈ shape.additional.schema?, value ≠ .ofKind .never
  | .allOf _ => ∀ key ∈ bodyKeywords, key ∉ Fields.keys schema.extra
  | _ => True

instance : DecidablePred Schema.Unmistakable := fun ⟨_, _, kind, extra⟩ =>
  match kind with
  | .enum type values => inferInstanceAs (Decidable (type ≠ none ∨ Primitive.infer? values = none))
  | .object shape => inferInstanceAs
      (Decidable (∀ value ∈ shape.additional.schema?, value ≠ .ofKind .never))
  | .allOf _ => inferInstanceAs (Decidable (∀ key ∈ bodyKeywords, key ∉ Fields.keys extra))
  | .ref _ | .const _ | .list | .listOf _ | .tuple _ | .anyOf _ | .primitive _ | .empty
  | .never => inferInstanceAs (Decidable True)

theorem Kind.claims_subset (kind : Kind) : kind.claims ⊆ shapeKeywords := by
  cases kind with
  | object shape =>
    rw [Kind.claims]
    split <;> decide
  | _ =>
    rw [Kind.claims]
    decide

/-- A shape has a claim on the compositions, except for the one that is read first. -/
theorem Kind.compositions_subset_claims {kind : Kind} (h : kind ≠ .never) :
    compositionKeywords ⊆ kind.claims := by
  cases kind with
  | never => exact absurd rfl h
  | object shape =>
    rw [Kind.claims, List.append_assoc]
    exact List.subset_append_left _ _
  | _ => exact List.subset_append_left _ _

/-- A plainspoken schema keeps nothing else than reading leaves. -/
theorem Schema.Plainspoken.asRead {schema : Schema} (h : schema.Plainspoken)
    (hnames : schema.NamesApart) : schema.AsRead := by
  have hfree : ∀ key ∈ schemaKeywords, Fields.get? schema.extra key = none :=
    fun key hkey => Fields.get?_eq_none_iff.mpr (h.extra key hkey)
  have hkept : ∀ {p : Json → Prop} (key), key ∈ schemaKeywords →
      ∀ kept ∈ Fields.get? schema.extra key, p kept := by
    intro p key hkey kept hmem
    rw [hfree key hkey] at hmem
    cases hmem
  refine ⟨hnames, hkept "title" (by decide), hkept "description" (by decide),
    fun _ => hkept "not" (by decide), fun _ key hkey => h.extra key ?_,
    fun _ key hkey => h.extra key ?_, fun shape hshape => ⟨?_, fun _ => ?_⟩⟩
  · revert key
    decide
  · exact List.mem_cons_of_mem _ (List.mem_cons_of_mem _ (schema.kind.claims_subset hkey))
  · have hplain := h.kind
    rw [hshape] at hplain
    exact hplain.1
  · rw [listedNames?, hfree "propertyNames" (by decide)]
    rfl

/-- A plainspoken schema is unmistakable. -/
theorem Schema.Plainspoken.unmistakable {schema : Schema} (h : schema.Plainspoken) :
    schema.Unmistakable := by
  obtain ⟨title, description, kind, extra⟩ := schema
  have hkind := h.kind
  cases kind with
  | enum type values => exact hkind
  | object shape => exact hkind.2
  | allOf parts => exact fun key hkey => h.extra key (by revert key; decide)
  | _ => trivial

/-! ### The written keywords -/

theorem keys_textMember_sublist (name : String) (text : Option String) :
    (Fields.keys (textMember name text)).Sublist [name] := by
  cases text with
  | none => exact List.nil_sublist _
  | some text => exact List.Sublist.refl _

private theorem keys_memberUnlessEmpty_sublist (name : String) (fields : Fields Json) :
    (Fields.keys (memberUnlessEmpty name fields)).Sublist [name] := by
  unfold memberUnlessEmpty
  split
  · exact List.nil_sublist _
  · exact List.Sublist.refl _

private theorem keys_requiredMember_sublist (names : List String) :
    (Fields.keys (requiredMember names)).Sublist ["required"] := by
  unfold requiredMember
  split
  · exact List.nil_sublist _
  · exact List.Sublist.refl _

private theorem keys_namesMember_sublist (names : Option (List String)) :
    (Fields.keys (namesMember names)).Sublist ["propertyNames"] := by
  cases names with
  | none => exact List.nil_sublist _
  | some names => exact List.Sublist.refl _

private theorem keys_additional_sublist (additional : Additional) :
    (Fields.keys additional.members).Sublist ["additionalProperties"] := by
  cases additional with
  | unstated => exact List.nil_sublist _
  | allowed flag => exact List.Sublist.refl _
  | schema value => exact List.Sublist.refl _

private theorem keys_enumTypeMember_sublist (type : Option Primitive) :
    (Fields.keys (enumTypeMember type)).Sublist ["type"] := by
  cases type with
  | none => exact List.nil_sublist _
  | some p => exact List.Sublist.refl _

/-- The keywords of an object shape after its type, each with what is written of it. -/
def ObjectSchema.pieces (shape : ObjectSchema) : List (String × Fields Json) :=
  [("properties", memberUnlessEmpty "properties" (Schema.toJsonFields shape.properties)),
    ("required", requiredMember shape.required),
    ("additionalProperties", shape.additional.members),
    ("patternProperties", memberUnlessEmpty "patternProperties" (Schema.toJsonFields shape.patterns)),
    ("propertyNames", namesMember shape.names)]

theorem ObjectSchema.pieces_names (shape : ObjectSchema) :
    shape.pieces.map Prod.fst =
      ["properties", "required", "additionalProperties", "patternProperties", "propertyNames"] := rfl

theorem ObjectSchema.members_eq (shape : ObjectSchema) :
    shape.members = shape.pieces.flatMap Prod.snd := by
  obtain ⟨properties, required, additional, patterns, names⟩ := shape
  simp only [ObjectSchema.members, ObjectSchema.pieces, List.flatMap_cons, List.flatMap_nil,
    List.append_assoc, List.append_nil]

/-- The keywords that are written of an object shape. -/
theorem ObjectSchema.keys_members_subset (shape : ObjectSchema) :
    Fields.keys shape.members ⊆
      ["properties", "required", "additionalProperties", "patternProperties"] ++
        if shape.names.isSome then ["propertyNames"] else [] := by
  obtain ⟨properties, required, additional, patterns, names⟩ := shape
  have hnames : (Fields.keys (namesMember names)).Sublist
      (if names.isSome then ["propertyNames"] else []) := by
    cases names with
    | none => exact List.nil_sublist _
    | some names => exact List.Sublist.refl _
  simp only [ObjectSchema.members, Fields.keys_append]
  exact (((((keys_memberUnlessEmpty_sublist "properties" _).append
    (keys_requiredMember_sublist required)).append (keys_additional_sublist additional)).append
      (keys_memberUnlessEmpty_sublist "patternProperties" _)).append hnames).subset

theorem ObjectSchema.keys_pieces_sublist (shape : ObjectSchema) :
    ∀ piece ∈ shape.pieces, (Fields.keys piece.2).Sublist [piece.1] := by
  simp only [ObjectSchema.pieces, List.forall_mem_cons]
  exact ⟨keys_memberUnlessEmpty_sublist _ _, keys_requiredMember_sublist _,
    keys_additional_sublist _, keys_memberUnlessEmpty_sublist _ _, keys_namesMember_sublist _,
    List.forall_mem_nil _⟩

section Pieces

variable {pieces : List (String × Fields Json)}
  (hpieces : ∀ piece ∈ pieces, (Fields.keys piece.2).Sublist [piece.1])
include hpieces

theorem keys_flatMap_pieces_sublist :
    (Fields.keys (pieces.flatMap Prod.snd)).Sublist (pieces.map Prod.fst) := by
  induction pieces with
  | nil => exact List.nil_sublist _
  | cons piece rest ih =>
    obtain ⟨hpiece, hrest⟩ := List.forall_mem_cons.mp hpieces
    rw [List.flatMap_cons, Fields.keys_append, List.map_cons]
    exact hpiece.append (ih hrest)

/-- A keyword is found in its own piece. -/
theorem get?_flatMap_pieces (hnames : (pieces.map Prod.fst).Nodup) {key : String}
    {piece : Fields Json} (hmem : (key, piece) ∈ pieces) :
    Fields.get? (pieces.flatMap Prod.snd) key = Fields.get? piece key := by
  induction pieces with
  | nil => exact absurd hmem List.not_mem_nil
  | cons first rest ih =>
    obtain ⟨hfirst, hrest⟩ := List.forall_mem_cons.mp hpieces
    obtain ⟨hnew, hnames⟩ := List.nodup_cons.mp hnames
    rw [List.flatMap_cons, Fields.get?_append]
    rcases List.mem_cons.mp hmem with rfl | hmem
    · have hnone : Fields.get? (rest.flatMap Prod.snd) key = none :=
        Fields.get?_eq_none_iff.mpr fun hkey =>
          hnew ((keys_flatMap_pieces_sublist hrest).mem hkey)
      rw [hnone, Option.or_none]
    · have hnone : Fields.get? first.2 key = none := Fields.get?_eq_none_iff.mpr fun hkey =>
        hnew (List.mem_singleton.mp (hfirst.mem hkey) ▸ List.mem_map_of_mem hmem)
      rw [hnone, Option.none_or, ih hrest hnames hmem]

end Pieces

/-- The keywords of a shape are keywords with a meaning, in their order. -/
theorem Kind.keys_members_sublist (kind : Kind) :
    (Fields.keys kind.members).Sublist shapeKeywords := by
  cases kind with
  | enum type values =>
    rw [Kind.members, Fields.keys_append]
    exact ((keys_enumTypeMember_sublist type).append (List.Sublist.refl ["enum"])).trans (by decide)
  | object shape =>
    rw [Kind.members, Fields.keys_cons]
    have hpieces := keys_flatMap_pieces_sublist shape.keys_pieces_sublist
    rw [shape.pieces_names] at hpieces
    rw [shape.members_eq]
    exact (hpieces.cons_cons "type").trans (by decide)
  | _ => simp only [Kind.members, typeMember, Fields.keys_cons, Fields.keys_nil]; decide

/-- A shape has a claim on the keywords that are written of it. -/
theorem Kind.keys_members_subset_claims (kind : Kind) :
    Fields.keys kind.members ⊆ kind.claims := by
  cases kind with
  | object shape =>
    rw [Kind.members, Fields.keys_cons, Kind.claims]
    refine List.cons_subset.mpr ⟨by simp, fun key hkey => ?_⟩
    have hmem := shape.keys_members_subset hkey
    simp only [List.mem_append, List.mem_cons] at hmem ⊢
    tauto
  | enum type values => cases type <;> simp [Kind.members, Kind.claims, enumTypeMember, typeMember]
  | _ => simp [Kind.members, Kind.claims, compositionKeywords, typeMember]

/-- The shape that is read beside the composition keywords. -/
def Kind.base : Kind → Kind
  | .allOf _ => .empty
  | .anyOf _ => .empty
  | kind => kind

/-- An object shape is written under its type and its own keywords. -/
theorem Kind.get?_object_members_of_notMem {shape : ObjectSchema} {key : String}
    (htype : key ≠ "type") (hkey : key ∉ objectKeywords) :
    Fields.get? (Kind.object shape).members key = none := by
  refine Fields.get?_eq_none_iff.mpr fun hmem => ?_
  rw [Kind.members, Fields.keys_cons] at hmem
  have hsublist := keys_flatMap_pieces_sublist shape.keys_pieces_sublist
  rw [← shape.members_eq, shape.pieces_names] at hsublist
  rcases List.mem_cons.mp hmem with rfl | hmem
  · exact htype rfl
  · exact hkey (hsublist.mem hmem)

/-- Only a composition is written under a composition keyword. -/
theorem Kind.get?_members_composition {kind : Kind} {key : String} (hbase : kind.base = kind)
    (hkey : key ∈ ["allOf", "anyOf", "oneOf"]) : Fields.get? kind.members key = none := by
  have hmem : ∀ members : Fields Json, Fields.keys members ⊆ ["type", "not", "$ref", "const",
      "enum", "items"] → Fields.get? members key = none := by
    intro members hsubset
    refine Fields.get?_eq_none_iff.mpr fun hmem => ?_
    have hother := hsubset hmem
    clear hmem hsubset
    revert key
    decide
  cases kind with
  | object shape =>
    have hother : key ≠ "type" ∧ key ∉ objectKeywords := by
      clear hmem hbase
      revert key
      decide
    exact Kind.get?_object_members_of_notMem hother.1 hother.2
  | allOf parts => cases hbase
  | anyOf branches => cases hbase
  | enum type values =>
    refine hmem _ ?_
    cases type <;> simp [Kind.members, enumTypeMember, typeMember]
  | _ => exact hmem _ (by simp [Kind.members, typeMember])

/-- Only the schema that accepts nothing is written with a negation. -/
theorem Kind.get?_not_members {kind : Kind} (h : kind ≠ .never) :
    Fields.get? kind.members "not" = none := by
  cases kind with
  | object shape => exact Kind.get?_object_members_of_notMem (by decide) (by decide)
  | enum type values => cases type <;> rfl
  | never => exact absurd rfl h
  | _ => rfl

/-- What a schema says about itself is written first, then the keywords of its shape. -/
def Schema.head (schema : Schema) : Fields Json :=
  textMember "title" schema.title ++ textMember "description" schema.description
    ++ schema.kind.members

theorem Schema.keys_head_sublist (schema : Schema) :
    (Fields.keys schema.head).Sublist schemaKeywords := by
  rw [Schema.head, Fields.keys_append, Fields.keys_append]
  exact ((keys_textMember_sublist "title" _).append
    (keys_textMember_sublist "description" _)).append schema.kind.keys_members_sublist

/-- Every schema but the one written `false` is written as an object, the kept keywords
last. -/
theorem Schema.toJson_eq {schema : Schema} (h : schema ≠ .ofKind .never) :
    schema.toJson = .object (schema.extra.foldl
      (fun fields entry => Fields.add fields entry.1 entry.2) schema.head) := by
  obtain ⟨title, description, kind, extra⟩ := schema
  rw [Schema.toJson]
  · rfl
  · rintro rfl rfl rfl rfl
    exact h rfl

/-- Nothing is kept under a keyword that is written of the shape. -/
theorem Schema.AsRead.notMem_extra_of_members {schema : Schema} (h : schema.AsRead) {key : String}
    (hkey : key ∈ Fields.keys schema.kind.members) : key ∉ Fields.keys schema.extra := by
  cases hkind : schema.kind with
  | allOf parts =>
    rw [hkind] at hkey
    obtain rfl : key = "allOf" := List.mem_singleton.mp hkey
    exact h.compositions (by rw [hkind]; simp) _ (by decide)
  | _ =>
    exact h.claims (by rw [hkind]; simp) _ (schema.kind.keys_members_subset_claims hkey)

theorem Schema.AsRead.notMem_extra_of_head {schema : Schema} (h : schema.AsRead) {key : String}
    (hkey : key ∈ Fields.keys schema.head) : key ∉ Fields.keys schema.extra := by
  have htext : ∀ {name : String} {text : Option String},
      (∀ kept ∈ Fields.get? schema.extra name, text = none ∧ kept.string? = none) →
        key ∈ Fields.keys (textMember name text) → key ∉ Fields.keys schema.extra := by
    intro name text hfree hmem
    cases text with
    | none => cases hmem
    | some text =>
      obtain rfl := List.mem_singleton.mp hmem
      intro hkept
      obtain ⟨kept, hget⟩ := Option.isSome_iff_exists.mp (Fields.contains_iff.mpr hkept)
      cases (hfree kept hget).1
  rw [Schema.head, Fields.keys_append, Fields.keys_append] at hkey
  rcases List.mem_append.mp hkey with hkey | hkey
  · rcases List.mem_append.mp hkey with hkey | hkey
    · exact htext h.title hkey
    · exact htext h.description hkey
  · exact h.notMem_extra_of_members hkey

/-- The written keywords have distinct names. -/
theorem Schema.AsRead.nodup_written {schema : Schema} (h : schema.AsRead) :
    (Fields.keys (schema.head ++ schema.extra)).Nodup := by
  rw [Fields.keys_append, List.nodup_append]
  refine ⟨schema.keys_head_sublist.nodup (by decide), h.names.nodup_extra, ?_⟩
  rintro key hhead _ hextra rfl
  exact h.notMem_extra_of_head hhead hextra

/-- The kept keywords stand behind the others. -/
theorem Schema.AsRead.toJson_eq_append {schema : Schema} (h : schema.AsRead)
    (hnever : schema ≠ .ofKind .never) : schema.toJson = .object (schema.head ++ schema.extra) := by
  rw [Schema.toJson_eq hnever, Fields.foldl_add_eq_append h.names.nodup_extra]
  exact fun key hextra hhead => h.notMem_extra_of_head hhead hextra

/-! ### Looking the keywords up -/

/-- The fields have the keywords of a shape, and no other keywords that are read in their
place. -/
structure Shows (fields : Fields Json) (kind : Kind) : Prop where
  claims : ∀ key ∈ kind.claims, Fields.get? fields key = Fields.get? kind.members key
  negation : kind ≠ .never → ∀ value ∈ Fields.get? fields "not", acceptsAnything value = false
  names : ∀ shape, kind = .object shape → listedNames? fields = shape.names

/-- Named schemas are written under their keyword, unless there are none. -/
theorem get?_memberUnlessEmpty_cons {fields : Fields Schema} {entry : String × Schema}
    (key : String) :
    Fields.get? (memberUnlessEmpty key (Schema.toJsonFields (entry :: fields))) key =
      some (.object (Schema.toJsonFields (entry :: fields))) := by
  rw [memberUnlessEmpty, Schema.toJsonFields, List.isEmpty_cons, if_neg (by decide),
    Fields.get?_cons, if_pos rfl]

theorem get?_textMember_self (name : String) (text : Option String) :
    Fields.get? (textMember name text) name = text.map .string := by
  cases text <;> simp [textMember]

theorem get?_textMember_of_ne {name key : String} (text : Option String) (hne : key ≠ name) :
    Fields.get? (textMember name text) key = none := by
  cases text <;> simp [textMember, Ne.symm hne]

theorem listedNames?_namesMember {written : Fields Json} {names : Option (List String)}
    (hget : Fields.get? written "propertyNames" =
      Fields.get? (namesMember names) "propertyNames") : listedNames? written = names := by
  have hstrings : ∀ names : List String,
      (names.map Json.string).filterMap Json.string? = names := by
    intro names
    rw [List.filterMap_map]
    exact List.filterMap_some
  rw [listedNames?, hget]
  cases names with
  | none => rfl
  | some names => exact congrArg some (hstrings names)

/-- The keywords of an object shape are found each in its own piece. -/
theorem ObjectSchema.get?_members {shape : ObjectSchema} {key : String} {piece : Fields Json}
    (hmem : (key, piece) ∈ shape.pieces) (hkey : key ≠ "type") :
    Fields.get? (Kind.object shape).members key = Fields.get? piece key := by
  rw [Kind.members, Fields.get?_cons, if_neg (Ne.symm hkey), shape.members_eq]
  exact get?_flatMap_pieces shape.keys_pieces_sublist (by rw [shape.pieces_names]; decide) hmem

namespace Schema

variable {schema : Schema} {key : String}

/-- A keyword that is not kept is found among those of the shape. -/
theorem get?_written (hkey : key ∈ shapeKeywords) (hfree : key ∉ Fields.keys schema.extra) :
    Fields.get? (schema.head ++ schema.extra) key = Fields.get? schema.kind.members key := by
  have htitle : key ≠ "title" := by rintro rfl; exact absurd hkey (by decide)
  have hdescription : key ≠ "description" := by rintro rfl; exact absurd hkey (by decide)
  rw [Fields.get?_append, Fields.get?_eq_none_iff.mpr hfree, Schema.head, Fields.get?_append,
    Fields.get?_append, get?_textMember_of_ne _ htitle, get?_textMember_of_ne _ hdescription,
    Option.none_or, Option.none_or, Option.or_none]

/-- A keyword that is not written of the shape is found among the kept ones. -/
theorem get?_kept (hkey : key ∈ shapeKeywords)
    (hfree : Fields.get? schema.kind.members key = none) :
    Fields.get? (schema.head ++ schema.extra) key = Fields.get? schema.extra key := by
  have htitle : key ≠ "title" := by rintro rfl; exact absurd hkey (by decide)
  have hdescription : key ≠ "description" := by rintro rfl; exact absurd hkey (by decide)
  rw [Fields.get?_append, Schema.head, Fields.get?_append, Fields.get?_append,
    get?_textMember_of_ne _ htitle, get?_textMember_of_ne _ hdescription, hfree]
  rfl

/-- What a written schema says about itself is what the schema says. -/
private theorem get?_text_written {name : String} {text : Option String}
    (hhead : Fields.get? schema.head name = text.map .string)
    (hkept : ∀ kept ∈ Fields.get? schema.extra name, text = none ∧ kept.string? = none) :
    (Fields.get? (schema.head ++ schema.extra) name).bind Json.string? = text := by
  rw [Fields.get?_append, hhead]
  cases text with
  | some text => rfl
  | none =>
    cases hget : Fields.get? schema.extra name with
    | none => rfl
    | some kept => exact (hkept kept hget).2

namespace AsRead

variable (h : schema.AsRead)
include h

theorem get?_title_written :
    (Fields.get? (schema.head ++ schema.extra) "title").bind Json.string? = schema.title := by
  have hdescription : Fields.get? (textMember "description" schema.description) "title" = none :=
    get?_textMember_of_ne _ (by decide)
  have hmembers : Fields.get? schema.kind.members "title" = none :=
    Fields.get?_eq_none_iff.mpr fun hmem =>
      absurd (schema.kind.keys_members_sublist.mem hmem) (by decide)
  refine get?_text_written ?_ h.title
  rw [Schema.head, Fields.get?_append, Fields.get?_append, hdescription, hmembers,
    get?_textMember_self, Option.or_none, Option.or_none]

theorem get?_description_written :
    (Fields.get? (schema.head ++ schema.extra) "description").bind Json.string? =
      schema.description := by
  have htitle : Fields.get? (textMember "title" schema.title) "description" = none :=
    get?_textMember_of_ne _ (by decide)
  have hmembers : Fields.get? schema.kind.members "description" = none :=
    Fields.get?_eq_none_iff.mpr fun hmem =>
      absurd (schema.kind.keys_members_sublist.mem hmem) (by decide)
  refine get?_text_written ?_ h.description
  rw [Schema.head, Fields.get?_append, Fields.get?_append, htitle, hmembers,
    get?_textMember_self, Option.none_or, Option.or_none]

/-- Nothing is kept on which the shape of an unmistakable schema has a claim. -/
theorem notMem_extra_of_claims (hplain : schema.Unmistakable) :
    ∀ key ∈ schema.kind.claims, key ∉ Fields.keys schema.extra := by
  cases hkind : schema.kind with
  | allOf parts =>
    intro key hkey
    rw [Schema.Unmistakable, hkind] at hplain
    rcases List.mem_append.mp hkey with hkey | hkey
    · exact h.compositions (by rw [hkind]; simp) key hkey
    · exact hplain key hkey
  | _ =>
    rw [← hkind]
    exact h.claims (by rw [hkind]; simp)

/-- **A written schema shows its shape**, if nothing is kept on which it has a claim. -/
theorem shows_written (hclaims : ∀ key ∈ schema.kind.claims, key ∉ Fields.keys schema.extra) :
    Shows (schema.head ++ schema.extra) schema.kind where
  claims := fun key hkey =>
    Schema.get?_written (schema.kind.claims_subset hkey) (hclaims key hkey)
  negation := by
    intro hnever value hvalue
    rw [Schema.get?_kept (by decide) (Kind.get?_not_members hnever)] at hvalue
    exact h.negation hnever value hvalue
  names := by
    intro shape hshape
    have hpiece : ("propertyNames", namesMember shape.names) ∈ shape.pieces := by
      simp [ObjectSchema.pieces]
    cases hnames : shape.names with
    | none =>
      have hmembers : Fields.get? schema.kind.members "propertyNames" = none := by
        rw [hshape, ObjectSchema.get?_members hpiece (by decide), hnames]
        rfl
      have hkept := (h.object shape hshape).2 hnames
      rw [listedNames?] at hkept ⊢
      rw [Schema.get?_kept (by decide) hmembers, hkept]
    | some names =>
      refine listedNames?_namesMember ?_
      have hclaim : "propertyNames" ∈ schema.kind.claims := by
        rw [hshape, Kind.claims, hnames]
        exact List.mem_append_right _ List.mem_cons_self
      rw [Schema.get?_written (by decide) (hclaims _ hclaim), hshape,
        ObjectSchema.get?_members hpiece (by decide), hnames]

end AsRead

end Schema

end RpcSchema
