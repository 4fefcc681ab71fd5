import RpcSchema.Proofs.Dereference.Missing
import RpcSchema.Proofs.Identity

/-!
# The schemas of properties

The walk treats a map of properties as it treats any object: what stands under a name is walked,
unless the name is that of a keyword with data.  So the name of a property decides whether its
schema is dereferenced at all, but nothing else: under any other name the schema comes to the same
value.  Only the pointers of the references that are left in place tell the names apart.

A property that goes by the name of a keyword with data is left as it is.  References in its schema
stay, and one without a target goes unnoticed.

## Main definitions

* `Store.TreatsProperty` — the schema of a property is dereferenced as under any other name.

## Main results

* `Walks.goTo` — a walk does not depend on where the result of it stands.
* `dereferenceAt_property` — the schemas of properties are dereferenced, but for the names of
  keywords with data.
-/

namespace RpcSchema

open Relation

variable {store : Store}

/-! ### Pointers -/

@[simp] theorem Frame.goTo_inside (frame : Frame) (path : String) (fields : Fields Json) :
    (frame.goTo path).inside fields = (frame.inside fields).goTo path := by
  unfold Frame.inside
  split <;> rfl

/-- Frames that differ in the pointer alone. -/
private def Frame.SamePlace (frame frame' : Frame) (_ : Json) : Prop :=
  ∃ path, frame' = frame.goTo path

private theorem simulation_samePlace : Walk.Simulation store Frame.SamePlace where
  member := by
    rintro frame _ fields name part ⟨path, rfl⟩ - -
    exact ⟨Pointer.child ((frame.goTo path).inside fields).path name, by
      rw [Frame.goTo_inside]
      rfl⟩
  item := by
    rintro frame _ items index part ⟨path, rfl⟩ -
    exact ⟨Pointer.item path index, rfl⟩
  refers := by
    rintro frame _ fields reference target ⟨path, rfl⟩ href
    exact ⟨target, href, rfl, rfl, fun _ => ⟨rfl, path, rfl⟩⟩

/-- **A walk does not depend on where its result stands**, nor on what was logged before. -/
theorem Walks.goTo {frame : Frame} {value walked : Json} {log log' : WalkLog}
    (h : Walks ⟨store, .standard⟩ frame value log walked log') (path : String) (other : WalkLog) :
    ∃ other', Walks ⟨store, .standard⟩ (frame.goTo path) value other walked other' :=
  h.simulate simulation_samePlace ⟨path, rfl⟩ other

/-! ### Properties -/

/-- The frame of the members of a map of properties, the map being that of an object. -/
def Frame.properties (frame : Frame) (fields properties : Fields Json) : Frame :=
  ((frame.inside fields).member "properties").inside properties

/-- Dereferencing a node treats the schema of a property as it would under any other name.  The
map of properties is one that the walk of the node comes to; `frame` is that of its members. -/
structure Store.TreatsProperty (store : Store) (context : store.Context) (node : Json)
    (path : String) (frame : Frame) (properties : Fields Json) (name : String) (schema : Json) :
    Prop where
  /-- A reference that has no target is reported. -/
  reported : ∀ members reference, schema = .object members →
    referenceOf? members = some reference → store.locate? reference frame.source = none →
      ∃ last failure, store.dereferenceAt .standard node context path = .error failure ∧
        ReflTransGen (Calls ⟨store, .standard⟩) (.start context path node) last ∧
          last.Lacks store failure
  /-- Otherwise the schema gives way to what it is walked to, the same under any name; and if it
  is a reference, then to what takes the place of the reference. -/
  walked : ∀ result, store.dereferenceAt .standard node context path = .ok result →
    ∃ properties' walked log log', WalksMembers ⟨store, .standard⟩ frame properties log
        properties' log' ∧ (name, walked) ∈ properties' ∧
      (∀ other before, ∃ after,
        Walks ⟨store, .standard⟩ (frame.member other) schema before walked after) ∧
      ∀ other members reference target, schema = .object members →
        RefersTo store frame.source members reference target →
          store.Replaces (frame.member other) members reference target walked

/-- **The schemas of properties are dereferenced**, whatever the property is called, but for the
names of keywords with data.  The map of properties may stand anywhere in the node or in a target
that is inlined. -/
theorem dereferenceAt_property {context : store.Context} {node : Json} {path : String}
    {frame : Frame} {fields properties : Fields Json} {name : String} {schema : Json}
    (hreach : ReflTransGen (Calls ⟨store, .standard⟩) (.start context path node)
      ⟨frame, .object fields⟩)
    (hmap : ("properties", .object properties) ∈ fields) (hmem : (name, schema) ∈ properties)
    (hname : isOpaqueKeyword name = false) :
    store.TreatsProperty context node path (frame.properties fields properties) properties name
      schema := by
  have hcall : ReflTransGen (Calls ⟨store, .standard⟩) (.start context path node)
      ⟨(frame.inside fields).member "properties", .object properties⟩ :=
    hreach.tail (.inl (.member hmap (by decide)))
  refine ⟨fun members reference hschema hmade hmissing => ?_, fun result hresult => ?_⟩
  · have hlacks : Call.Lacks store ⟨(frame.properties fields properties).member name, schema⟩
        (Walk.missing ((frame.properties fields properties).member name) reference) :=
      ⟨members, reference, hschema, hmade, hmissing, rfl⟩
    obtain ⟨failure, hfailure⟩ :=
      exists_error_iff.mpr ⟨_, _, hcall.tail (.inl (.member hmem hname)), hlacks⟩
    obtain ⟨last, hlast, hlacks⟩ := exists_lacks_of_error hfailure
    exact ⟨last, failure, hfailure, hlast, hlacks⟩
  · obtain ⟨_, _, hwalks, -⟩ := dereferenceAt_eq_ok_iff.mp hresult
    obtain ⟨_, log, _, hwalks⟩ := Walks.of_leads hwalks hcall
    obtain ⟨properties', log', hmembers⟩ := hwalks.members_walked
    obtain ⟨walked, _, _, hwalked, hpart⟩ := hmembers.of_mem hmem hname
    refine ⟨properties', walked, log, log', hmembers, hwalked, fun other before => hpart.goTo _ _,
      fun other members reference target hschema href => ?_⟩
    obtain ⟨_, hother⟩ := hpart.goTo (Pointer.child (frame.properties fields properties).path other)
      .empty
    subst hschema
    exact Walks.replaces href hother

/-- A reference to a schema. -/
def nameReference : Json := .object [("$ref", .string "#/components/schemas/Name")]

/-- Two properties with that schema.  One of them goes by the name of a keyword with data. -/
def settingsProperties : Fields Json := [("name", nameReference), ("default", nameReference)]

/-- A schema with the two properties. -/
def settingsFields : Fields Json :=
  [("properties", .object settingsProperties), ("title", .string "Settings")]

/-- A document with both schemas. -/
def settingsDocument : Document := ⟨none, "Settings", .object [("components", .object
  [("schemas", .object
    [("Settings", .object settingsFields),
      ("Name", .object [("type", .string "string"), ("title", .string "Name")])])])]⟩

/-- A reference to the schema with the properties. -/
def settingsReference : Json := .object [("$ref", .string "#/components/schemas/Settings")]

/-- In the target of a reference, the reference under a plain name gives way to its target. -/
theorem dereferenceAt_property_settingsReference :
    let frame := (Frame.start settingsDocument.asContext "#").expand settingsDocument.asContext
      "#/components/schemas/Settings"
    ReflTransGen (Calls ⟨.empty, .standard⟩)
        (.start settingsDocument.asContext "#" settingsReference) ⟨frame, .object settingsFields⟩ ∧
      ("properties", .object settingsProperties) ∈ settingsFields ∧
      ("name", nameReference) ∈ settingsProperties ∧ isOpaqueKeyword "name" = false ∧
      Store.empty.TreatsProperty settingsDocument settingsReference "#"
        (frame.properties settingsFields settingsProperties) settingsProperties "name"
        nameReference ∧
      ∃ result, Store.empty.dereferenceAt .standard settingsReference settingsDocument "#"
          = .ok result ∧
        result.schema.at? [.member "properties", .member "name"]
          = some (.object [("type", .string "string"), ("title", .string "Name")]) := by
  intro frame
  have hreach : ReflTransGen (Calls ⟨.empty, .standard⟩)
      (.start settingsDocument.asContext "#" settingsReference)
      ⟨frame, .object settingsFields⟩ := by
    let target : Target := ⟨settingsDocument.asContext,
      [.member "components", .member "schemas", .member "Settings"], .object settingsFields⟩
    have href : RefersTo Store.empty settingsDocument.asContext
        [("$ref", .string "#/components/schemas/Settings")] "#/components/schemas/Settings"
        target := ⟨by decide, by decide +kernel⟩
    have htreat : Walk.treatment .standard (.start settingsDocument.asContext "#")
        "#/components/schemas/Settings" target = .inline := by decide +kernel
    have hkey : target.canonical .context "#/components/schemas/Settings"
        = "#/components/schemas/Settings" := by decide +kernel
    have hexpands : Expands ⟨.empty, .standard⟩
        (.start settingsDocument.asContext "#" settingsReference)
        (target.canonical .context "#/components/schemas/Settings") _ := .inline href htreat
    rw [hkey] at hexpands
    exact .single (.inr ⟨_, hexpands⟩)
  have hrun : Store.empty.dereferenceAt .standard settingsReference settingsDocument "#" =
      .ok ⟨.object [("properties", .object
        [("name", .object [("type", .string "string"), ("title", .string "Name")]),
          ("default", nameReference)]), ("title", .string "Settings")], [], []⟩ :=
    eq_ok_of_toOption (by decide +kernel)
  exact ⟨hreach, List.mem_cons_self, List.mem_cons_self, by decide,
    dereferenceAt_property hreach List.mem_cons_self List.mem_cons_self (by decide),
    _, hrun, by decide +kernel⟩

/-- A reference without a target, under the name of a keyword with data. -/
def danglingProperties : Fields Json := [("default", .object [("$ref", .string "#/gone")])]

/-- The frame of the members of a map of properties, in an object of the document that has nothing
else. -/
def settingsFrame (properties : Fields Json) : Frame :=
  (Frame.start settingsDocument.asContext "#").properties [("properties", .object properties)]
    properties

/-- Under the name of a keyword with data the same reference stays, and one without a target goes
unnoticed. -/
theorem not_treatsProperty_default :
    ¬ Store.empty.TreatsProperty settingsDocument
        (.object [("properties", .object settingsProperties)]) "#"
        (settingsFrame settingsProperties) settingsProperties "default" nameReference ∧
      ¬ Store.empty.TreatsProperty settingsDocument
        (.object [("properties", .object danglingProperties)]) "#"
        (settingsFrame danglingProperties) danglingProperties "default"
        (.object [("$ref", .string "#/gone")]) := by
  constructor
  · intro h
    have hrun : Store.empty.dereferenceAt .standard
          (.object [("properties", .object settingsProperties)]) settingsDocument "#" =
        .ok ⟨.object [("properties", .object
          [("name", .object [("type", .string "string"), ("title", .string "Name")]),
            ("default", nameReference)])], [], []⟩ :=
      eq_ok_of_toOption (by decide +kernel)
    obtain ⟨properties', walked, log, log', hmembers, hmem, hwalks, -⟩ := h.walked _ hrun
    -- The member stays as it is ...
    have hnames : (Fields.keys properties').Nodup := by
      rw [hmembers.keys_eq]
      decide
    have hopaque : isOpaqueKeyword "default" = true := by decide
    have hstays := hmembers.get?_of_opaque hopaque
    rw [Fields.get?_of_mem hnames hmem] at hstays
    obtain rfl : walked = nameReference := Option.some.inj (hstays.trans (by decide +kernel))
    -- ... although the reference gives way to its target under another name.
    obtain ⟨after, hname⟩ := hwalks "name" .empty
    have hkept : Store.empty.dereferenceAt .standard nameReference settingsDocument
          (Pointer.child (Pointer.child "#" "properties") "name")
        = .ok (.ofWalk (nameReference, after)) :=
      dereferenceAt_eq_ok_iff.mpr ⟨_, _, hname, rfl⟩
    have hreplaced : Store.empty.dereferenceAt .standard nameReference settingsDocument
          (Pointer.child (Pointer.child "#" "properties") "name")
        = .ok ⟨.object [("type", .string "string"), ("title", .string "Name")], [], []⟩ :=
      eq_ok_of_toOption (by decide +kernel)
    have hschema := congrArg Dereferenced.schema (Except.ok.inj (hkept.symm.trans hreplaced))
    have hne : nameReference.restoreMarkers
        ≠ .object [("type", .string "string"), ("title", .string "Name")] := by decide +kernel
    exact hne hschema
  · intro h
    have hrun : Store.empty.dereferenceAt .standard
          (.object [("properties", .object danglingProperties)]) settingsDocument "#"
        = .ok ⟨.object [("properties", .object danglingProperties)], [], []⟩ :=
      eq_ok_of_toOption (by decide +kernel)
    obtain ⟨last, failure, herror, -⟩ := h.reported _ "#/gone" rfl (by decide) (by decide +kernel)
    rw [hrun] at herror
    cases herror

end RpcSchema
