import RpcSchema.Proofs.Dereference.Leftovers
import RpcSchema.Proofs.Identity
import RpcSchema.Proofs.Schema.Reading

/-!
# Annotations beside a reference

A title, a description, examples and private keywords say something about a schema without
deciding its shape.  Beside a reference they are laid over its target, whatever becomes of the
reference, and none of them takes the place of a keyword that decides a shape.  So the shape is
that of the bare reference.

The one exception is a target that is no object.  Nothing can be laid over it, and what stands
beside the reference takes its place: a schema that accepts nothing becomes one that accepts
anything.

## Main definitions

* `IsAnnotation`, `Annotates` — members that make a reference, and annotations beside it.
* `Json.AnnotatedAs` — what annotations make of a value.

## Main results

* `Walks.annotated` — what annotations make of what is walked to.
* `dereferenceAt_annotated` — the shape is that of the bare reference, but for a target `false`.
-/

namespace RpcSchema

/-! ### Annotations -/

/-- A member that says something about a schema without deciding its shape. -/
def IsAnnotation (name : String) (value : Json) : Prop :=
  (name = "title" ∨ name = "description") ∧ (∃ text, value = .string text) ∨ name = "examples" ∨
    "x-".toList <+: name.toList

/-- Members that make a reference, in any place among annotations without references. -/
structure Annotates (fields : Fields Json) (reference : String) : Prop where
  names : (Json.object fields).DistinctNames
  made : Fields.get? fields "$ref" = some (.string reference)
  beside : ∀ name value, (name, value) ∈ fields → name ≠ "$ref" →
    IsAnnotation name value ∧ value.references = []

/-- A bare reference. -/
def bareReference (reference : String) : Fields Json := [("$ref", .string reference)]

theorem annotates_bareReference (reference : String) :
    Annotates (bareReference reference) reference where
  names := Json.everyObject_object_iff.mpr ⟨by simp [bareReference], fun name part hmem => by
    obtain ⟨rfl, rfl⟩ := Prod.mk.inj (List.mem_singleton.mp hmem)
    exact Json.everyObject_scalar rfl rfl⟩
  made := rfl
  beside := fun name value hmem hname =>
    absurd (Prod.mk.inj (List.mem_singleton.mp hmem)).1 hname

/-- The keywords that annotations leave alone: those that decide a shape, and the marker. -/
def unannotated : List String := markerKeyword :: shapeKeywords

theorem IsAnnotation.notMem {name : String} {value : Json} (h : IsAnnotation name value) :
    name ∉ unannotated := by
  intro hmem
  rcases h with ⟨rfl | rfl, -⟩ | rfl | hprefix
  · exact absurd hmem (by decide)
  · exact absurd hmem (by decide)
  · exact absurd hmem (by decide)
  · revert hprefix
    revert name
    decide

namespace Annotates

variable {fields : Fields Json} {reference : String} (h : Annotates fields reference)
include h

theorem nodup_keys : (Fields.keys fields).Nodup := (Json.everyObject_object_iff.mp h.names).1

theorem referenceOf? : referenceOf? fields = some reference := by
  rw [RpcSchema.referenceOf?, h.made]
  rfl

/-- Only the reference is found under a keyword that annotations leave alone. -/
theorem get?_eq {key : String} (hkey : key ∈ unannotated) :
    Fields.get? fields key = Fields.get? (bareReference reference) key := by
  by_cases href : key = "$ref"
  · rw [href, h.made]
    rfl
  · rw [bareReference, Fields.get?_cons, if_neg (Ne.symm href), Fields.get?_nil,
      Fields.get?_eq_none_iff]
    intro hmem
    obtain ⟨value, hvalue⟩ := Fields.mem_keys.mp hmem
    exact (h.beside key value hvalue href).1.notMem hkey

theorem get?_beside : ∀ key ∈ unannotated,
    Fields.get? (Fields.swapErase fields "$ref") key = none := by
  intro key hkey
  by_cases href : key = "$ref"
  · rw [href, Fields.get?_swapErase_self h.nodup_keys]
  · rw [Fields.get?_swapErase_of_ne h.nodup_keys href, h.get?_eq hkey, bareReference,
      Fields.get?_cons, if_neg (Ne.symm href), Fields.get?_nil]

/-- Nothing stands beside a bare reference only. -/
theorem swapErase_eq_nil_iff : Fields.swapErase fields "$ref" = [] ↔
    fields = bareReference reference := by
  constructor
  · intro hnil
    have hperm := Fields.swapErase_perm h.nodup_keys "$ref"
    rw [hnil, List.nil_perm] at hperm
    have hmade := h.made
    cases fields with
    | nil => cases hmade
    | cons entry rest =>
      obtain ⟨name, value⟩ := entry
      by_cases href : name = "$ref"
      · rw [Fields.erase, if_pos href] at hperm
        rw [Fields.get?_cons, if_pos href] at hmade
        rw [href, hperm, Option.some.inj hmade]
        rfl
      · rw [Fields.erase, if_neg href] at hperm
        cases hperm
  · rintro rfl
    rfl

end Annotates

/-! ### Values without references -/

mutual

/-- A value without references is walked to itself. -/
theorem Walks.of_references_eq_nil {setting : WalkSetting} :
    ∀ {value : Json} (frame : Frame) (log : WalkLog), value.references = [] →
      Walks setting frame value log value log
  | .null, _, _, _ => .scalar rfl rfl
  | .bool _, _, _, _ => .scalar rfl rfl
  | .number _, _, _, _ => .scalar rfl rfl
  | .string _, _, _, _ => .scalar rfl rfl
  | .array items, frame, log, h => .array (.of_references_eq_nil frame 0 log h)
  | .object fields, frame, log, h => by
    rw [Json.references, List.append_eq_nil_iff, Option.toList_eq_nil_iff] at h
    exact .object h.1 (.of_references_eq_nil _ log h.2)

theorem WalksMembers.of_references_eq_nil {setting : WalkSetting} :
    ∀ {fields : Fields Json} (frame : Frame) (log : WalkLog), Json.referencesFields fields = [] →
      WalksMembers setting frame fields log fields log
  | [], _, _, _ => .nil
  | (name, part) :: rest, frame, log, h => by
    rw [Json.referencesFields, List.append_eq_nil_iff] at h
    cases hname : isOpaqueKeyword name with
    | true => exact .data hname (.of_references_eq_nil frame log h.2)
    | false =>
      exact .member hname (.of_references_eq_nil _ log h.1) (.of_references_eq_nil frame log h.2)

theorem WalksItems.of_references_eq_nil {setting : WalkSetting} :
    ∀ {items : List Json} (frame : Frame) (first : Nat) (log : WalkLog),
      Json.referencesItems items = [] → WalksItems setting frame first items log items log
  | [], _, _, _, _ => .nil
  | item :: rest, frame, first, log, h => by
    rw [Json.referencesItems, List.append_eq_nil_iff] at h
    exact .item (.of_references_eq_nil _ log h.1) (.of_references_eq_nil frame (first + 1) log h.2)

end

/-- A reference and its annotations stay as they are until the reference is replaced. -/
theorem Annotates.walksMembers {setting : WalkSetting} {fields : Fields Json} {reference : String}
    (h : Annotates fields reference) (frame : Frame) (log : WalkLog) :
    WalksMembers setting frame fields log fields log := by
  have hfree : ∀ name value, (name, value) ∈ fields →
      isOpaqueKeyword name = true ∨ value.references = [] := by
    intro name value hmem
    by_cases href : name = "$ref"
    · exact .inl (by rw [href]; rfl)
    · exact .inr (h.beside name value hmem href).2
  clear h
  induction fields with
  | nil => exact .nil
  | cons entry rest ih =>
    obtain ⟨name, value⟩ := entry
    have hrest := ih fun other part hmem => hfree other part (List.mem_cons_of_mem _ hmem)
    cases hname : isOpaqueKeyword name with
    | true => exact .data hname hrest
    | false =>
      have hvalue := (hfree name value List.mem_cons_self).resolve_left (by rw [hname]; decide)
      exact .member hname (.of_references_eq_nil _ log hvalue) hrest

/-! ### What annotations make of a value -/

/-- What a value becomes when it is annotated: an object with the same keywords that annotations
leave alone, or, of a value that is no object, the annotations in its place. -/
def Json.AnnotatedAs (beside : Fields Json) (bare annotated : Json) : Prop :=
  match bare with
  | .object fields => ∃ fields', annotated = .object fields' ∧
      ∀ key ∈ unannotated, Fields.get? fields' key = Fields.get? fields key
  | other => annotated = if beside.isEmpty then other else .object beside

/-- What is laid over a walked target annotates it. -/
theorem Json.annotatedAs_overlayTarget {beside : Fields Json} {target : Json}
    (htarget : target.DistinctNames)
    (hbeside : ∀ key ∈ unannotated, Fields.get? beside key = none) :
    Json.AnnotatedAs beside (overlayTarget [] target) (overlayTarget beside target) := by
  cases target with
  | object fields =>
    have hnames := (Json.everyObject_object_iff.mp htarget).1
    refine ⟨_, rfl, fun key hkey => ?_⟩
    rw [get?_overlay hnames, get?_overlay hnames, hbeside key hkey, Fields.get?_nil]
  | _ => rfl

variable {store : Store} {options : DereferenceOptions} {context : store.Context}
  {fields : Fields Json} {reference : String}

/-- **What annotations make of what is walked to**, whatever becomes of the reference. -/
theorem Walks.annotated
    (hroots : ∀ source ∈ store.sources context, source.document.root.DistinctNames)
    {frame : Frame} {bare : Json} {log log' : WalkLog} (hstands : frame.Stands context)
    (h : Annotates fields reference)
    (hbare : Walks ⟨store, options⟩ frame (.object (bareReference reference)) log bare log') :
    ∃ annotated, Walks ⟨store, options⟩ frame (.object fields) log annotated log' ∧
      Json.AnnotatedAs (Fields.swapErase fields "$ref") bare annotated := by
  have hmade : referenceOf? (bareReference reference) = some reference := rfl
  have hset : ∀ (name : String) (value : Json), ∀ key ∈ unannotated,
      Fields.get? (Fields.set fields name value) key =
        Fields.get? (Fields.set (bareReference reference) name value) key := by
    intro name value key hkey
    by_cases hname : key = name
    · rw [hname, Fields.get?_set_self, Fields.get?_set_self]
    · rw [Fields.get?_set_of_ne _ _ hname, Fields.get?_set_of_ne _ _ hname, h.get?_eq hkey]
  -- The members of the bare reference stay as they are, too.
  have hstay : ∀ {fields' : Fields Json} {log'' : WalkLog},
      WalksMembers ⟨store, options⟩ (frame.inside (bareReference reference))
        (bareReference reference) log fields' log'' →
      fields' = bareReference reference ∧ log'' = log := by
    intro fields' log'' hmembers
    cases hmembers with
    | data hname hrest =>
      cases hrest
      exact ⟨rfl, rfl⟩
    | member hname => cases hname
  have hmembers : ∀ (log : WalkLog), WalksMembers ⟨store, options⟩ (frame.inside fields) fields log
      fields log := h.walksMembers _
  cases hbare with
  | scalar hobject => cases hobject
  | object hnone => rw [hmade] at hnone; cases hnone
  | keep href htreat hbefore =>
    obtain ⟨rfl, rfl⟩ := hstay hbefore
    obtain rfl := Option.some.inj (hmade.symm.trans href.made)
    exact ⟨_, .keep ⟨h.referenceOf?, href.found⟩ htreat (hmembers _), _, rfl, fun _ => h.get?_eq⟩
  | copied href htreat hbefore hold =>
    obtain ⟨rfl, rfl⟩ := hstay hbefore
    obtain rfl := Option.some.inj (hmade.symm.trans href.made)
    exact ⟨_, .copied ⟨h.referenceOf?, href.found⟩ htreat (hmembers _) hold, _, rfl, hset _ _⟩
  | copy href htreat hbefore hnew hfresh htarget =>
    obtain ⟨rfl, rfl⟩ := hstay hbefore
    obtain rfl := Option.some.inj (hmade.symm.trans href.made)
    exact ⟨_, .copy ⟨h.referenceOf?, href.found⟩ htreat (hmembers _) hnew hfresh htarget, _, rfl,
      hset _ _⟩
  | leave href htreat hbefore =>
    obtain ⟨rfl, rfl⟩ := hstay hbefore
    obtain rfl := Option.some.inj (hmade.symm.trans href.made)
    refine ⟨_, .leave ⟨h.referenceOf?, href.found⟩ htreat (hmembers _), _, rfl,
      fun key hkey => ?_⟩
    by_cases hname : key = markerKeyword
    · rw [hname, Fields.get?_set_self, Fields.get?_set_self]
    · rw [Fields.get?_set_of_ne _ _ hname, Fields.get?_set_of_ne _ _ hname, h.get?_beside key hkey]
      rfl
  | inline href htreat hbefore htarget =>
    obtain ⟨rfl, rfl⟩ := hstay hbefore
    obtain rfl := Option.some.inj (hmade.symm.trans href.made)
    refine ⟨_, .inline ⟨h.referenceOf?, href.found⟩ htreat (hmembers _) htarget, ?_⟩
    have hnode := Store.everyObject_of_locate? href.found hstands.source.mem_sources hroots
    have hwalked := htarget.distinctNames hroots (hstands.expand href.found) hnode
    -- Nothing stands beside the bare reference.
    have hbare : Fields.swapErase (bareReference reference) "$ref" = [] := rfl
    rw [hbare]
    exact Json.annotatedAs_overlayTarget hwalked h.get?_beside

/-! ### Shapes -/

/-- Turning markers back keeps what is found under the keywords that decide a shape. -/
private theorem get?_restoreMarkers_eq {fields fields' : Fields Json}
    (hfields : (Fields.keys fields).Nodup) (hfields' : (Fields.keys fields').Nodup)
    (h : ∀ key ∈ unannotated, Fields.get? fields' key = Fields.get? fields key) :
    ∀ key ∈ shapeKeywords,
      Fields.get? (restoreMarker (Json.restoreMarkersFields fields)) key =
        Fields.get? (restoreMarker (Json.restoreMarkersFields fields')) key := by
  intro key hkey
  rw [get?_restoreMarker (by rwa [Json.keys_restoreMarkersFields]),
    get?_restoreMarker (by rwa [Json.keys_restoreMarkersFields])]
  simp only [Json.get?_restoreMarkersFields, h key (List.mem_cons_of_mem _ hkey),
    h "$ref" (by decide), h markerKeyword List.mem_cons_self]

/-- **The shape of an annotated value is that of the value**, unless it accepts nothing. -/
theorem Json.AnnotatedAs.read {beside : Fields Json} {bare annotated : Json} {path : String}
    {schema : Schema} (h : Json.AnnotatedAs beside bare annotated) (hbare : bare.DistinctNames)
    (hannotated : annotated.DistinctNames)
    (hbeside : ∀ key ∈ unannotated, Fields.get? beside key = none)
    (hread : Schema.read path bare.restoreMarkers = .ok schema) :
    ∃ found, Schema.read path annotated.restoreMarkers = .ok found ∧
      (found.kind = schema.kind ↔ beside = [] ∨ bare.restoreMarkers ≠ .bool false) := by
  cases bare with
  | object fields =>
    obtain ⟨fields', rfl, hget⟩ := h
    rw [Json.restoreMarkers] at hread ⊢
    rw [Json.restoreMarkers]
    obtain ⟨found, hfound, hkind⟩ := Schema.read_congr (get?_restoreMarkers_eq
      (Json.everyObject_object_iff.mp hbare).1 (Json.everyObject_object_iff.mp hannotated).1 hget)
      hread
    exact ⟨found, hfound, fun _ => .inr Json.noConfusion, fun _ => hkind⟩
  | bool flag =>
    by_cases hempty : beside = []
    · subst hempty
      obtain rfl : annotated = .bool flag := h
      exact ⟨schema, hread, fun _ => .inl rfl, fun _ => rfl⟩
    · obtain rfl : annotated = .object beside :=
        h.trans (if_neg fun h => hempty (List.isEmpty_iff.mp h))
      -- What stands beside the reference decides nothing.
      rw [Json.restoreMarkers]
      have hnil : (Fields.keys ([] : Fields Json)).Nodup := List.nodup_nil
      obtain ⟨found, hfound, hkind⟩ := Schema.read_congr (get?_restoreMarkers_eq hnil
        (Json.everyObject_object_iff.mp hannotated).1 hbeside) (Schema.read_object_nil path)
      have hbool : (Json.bool flag).restoreMarkers = .bool flag := rfl
      refine ⟨found, hfound, ?_⟩
      cases flag <;> simp only [hbool, Schema.read] at hread <;> cases hread <;>
        simp [hkind, hempty, Schema.ofKind, hbool]
  | null | number _ | string _ | array _ =>
    simp only [Json.restoreMarkers, Schema.read, refuse] at hread
    cases hread

/-- **Annotations beside a reference keep the shape of its target**, whatever becomes of the
reference: they take the place of a target only if it is `false`.  The references that are left
in place are the same, and so are the copies. -/
theorem dereferenceAt_annotated {path : String} {bare : Dereferenced} {schema : Schema}
    (hroots : ∀ source ∈ store.sources context, source.document.root.DistinctNames)
    (h : Annotates fields reference)
    (hbare : store.dereferenceAt options (.object (bareReference reference)) context path
      = .ok bare)
    (hschema : Schema.ofJson bare.schema path = .ok schema) :
    ∃ result found, store.dereferenceAt options (.object fields) context path = .ok result ∧
      result.unresolved = bare.unresolved ∧ result.components = bare.components ∧
        Schema.ofJson result.schema path = .ok found ∧
          (found.kind = schema.kind ↔
            fields = bareReference reference ∨ bare.schema ≠ .bool false) := by
  obtain ⟨walked, log, hwalks, rfl⟩ := dereferenceAt_eq_ok_iff.mp hbare
  have hstands : (Frame.start context path).Stands context := .start path
  obtain ⟨annotated, hannotated, hannotates⟩ := Walks.annotated hroots hstands h hwalks
  obtain ⟨found, hfound, hkind⟩ := hannotates.read
    (hwalks.distinctNames hroots hstands (annotates_bareReference reference).names)
    (hannotated.distinctNames hroots hstands h.names) h.get?_beside hschema
  refine ⟨.ofWalk (annotated, log), found, dereferenceAt_eq_ok_iff.mpr ⟨_, _, hannotated, rfl⟩,
    rfl, rfl, hfound, hkind.trans (or_congr_left h.swapErase_eq_nil_iff)⟩

/-- A document with a schema of whole numbers and one that accepts nothing. -/
def countDocument : Document := ⟨none, "Counts", .object [("components", .object
  [("schemas", .object [("Count", .object [("type", .string "integer")]),
    ("Nothing", .bool false)])])]⟩

/-- A reference among annotations. -/
def countFields : Fields Json :=
  [("title", .string "Size"), ("$ref", .string "#/components/schemas/Count"),
    ("x-unit", .object [("name", .string "byte")]), ("examples", .array [.number (.int 512)])]

theorem annotates_countFields : Annotates countFields "#/components/schemas/Count" where
  names := by decide
  made := rfl
  beside := by
    intro name value hmem hname
    simp only [countFields, List.mem_cons, List.not_mem_nil, or_false, Prod.mk.injEq] at hmem
    rcases hmem with ⟨rfl, rfl⟩ | ⟨rfl, rfl⟩ | ⟨rfl, rfl⟩ | ⟨rfl, rfl⟩
    · exact ⟨.inl ⟨.inl rfl, _, rfl⟩, rfl⟩
    · exact absurd rfl hname
    · exact ⟨.inr (.inr (by decide)), by decide⟩
    · exact ⟨.inr (.inl rfl), rfl⟩

/-- The annotated schema is one of whole numbers. -/
theorem dereferenceAt_annotated_count :
    (∀ source ∈ Store.empty.sources countDocument.asContext,
      source.document.root.DistinctNames) ∧
    Annotates countFields "#/components/schemas/Count" ∧
      ∃ result found, Store.empty.dereferenceAt .standard (.object countFields) countDocument "#"
          = .ok result ∧
        result.unresolved = [] ∧ Schema.ofJson result.schema "#" = .ok found ∧
          found.kind = .primitive .integer := by
  have hroots : ∀ source ∈ Store.empty.sources countDocument.asContext,
      source.document.root.DistinctNames := by decide
  have hbare : Store.empty.dereferenceAt .standard
      (.object (bareReference "#/components/schemas/Count")) countDocument "#"
      = .ok ⟨.object [("type", .string "integer")], [], []⟩ := eq_ok_of_toOption (by decide +kernel)
  have hschema : Schema.ofJson (.object [("type", .string "integer")]) "#"
      = .ok (.ofKind (.primitive .integer)) := by
    simp [Schema.ofJson, Schema.read, Schema.readBody, Schema.readPartsAt, takenText,
      describesObject, describesArray, typeName?, scalarKind]
    rfl
  obtain ⟨result, found, hresult, hunresolved, -, hfound, hkind⟩ :=
    dereferenceAt_annotated hroots annotates_countFields hbare hschema
  exact ⟨hroots, annotates_countFields, result, found, hresult, hunresolved, hfound,
    hkind.mpr (.inr Json.noConfusion)⟩

/-- A description beside a reference to the schema that accepts nothing takes its place, and
makes a schema that accepts anything. -/
theorem not_keepsShape_nothing :
    let reference := "#/components/schemas/Nothing"
    let annotated := [("$ref", .string reference), ("description", .string "No value.")]
    Annotates annotated reference ∧
      Store.empty.dereferenceAt .standard (.object (bareReference reference)) countDocument "#"
        = .ok ⟨.bool false, [], []⟩ ∧
      Schema.ofJson (.bool false) "#" = .ok (.ofKind .never) ∧
      Store.empty.dereferenceAt .standard (.object annotated) countDocument "#"
        = .ok ⟨.object [("description", .string "No value.")], [], []⟩ ∧
      Schema.ofJson (.object [("description", .string "No value.")]) "#"
        = .ok ⟨none, some "No value.", .empty, []⟩ := by
  intro reference annotated
  refine ⟨⟨by decide, rfl, fun name value hmem hname => ?_⟩,
    eq_ok_of_toOption (by decide +kernel), by rw [Schema.ofJson, Schema.read],
    eq_ok_of_toOption (by decide +kernel), ?_⟩
  · simp only [annotated, List.mem_cons, List.not_mem_nil, or_false, Prod.mk.injEq] at hmem
    rcases hmem with ⟨rfl, rfl⟩ | ⟨rfl, rfl⟩
    · exact absurd rfl hname
    · exact ⟨.inl ⟨.inr rfl, _, rfl⟩, rfl⟩
  · simp [Schema.ofJson, Schema.read, Schema.readBody, Schema.readPartsAt, takenText,
      describesObject, describesArray, typeName?, scalarKind]
    rfl

end RpcSchema
