import RpcSchema.Proofs.Dereference.Mooring
import RpcSchema.Proofs.Json.Equality

/-!
# Dereferencing again

When a result is dereferenced again, each reference that was left in place is looked at
anew.  The first time it may have been left because its target was being expanded.  The
second time nothing is being expanded, and it is known only by its title that an object
stands for a named schema, and only of schemas of the document worked on.  So a reference is
left again when it is anchored, and a result in which all references are stays as it is.

Others need not: a reference into a bundle, to a schema without a name, or to one whose
title was overlaid by another, is expanded again.

## Main definitions

* `Settled` — a value that stays as it is.
* `Store.Repeats` — dereferencing twice is dereferencing once.

## Main results

* `Settled.walks` — settled values stay as they are.
* `dereferenceAt_again` — results stay as they are where titles are not lost.
* `not_repeats_orchardDocument` — elsewhere they need not.
-/

namespace RpcSchema

/-- A value without markers whose references are anchored, where the schemas `named` can be
referred to. -/
structure Settled (store : Store) (context : Source) (named : List String) (value : Json) :
    Prop where
  lacks : value.Lacks markerKeyword
  distinct : value.DistinctNames
  anchored : value.Anchored store context named
  reads : ∀ reference ∈ named, store.ReadsBack context reference

/-! ### Parts -/

section Parts

variable {store : Store} {context : Source} {frame : Frame} {fields : Fields Json}
  {items : List Json} {named : List String} {name reference : String} {part : Json}

/-- The reference to the named schema that an object is taken for reads back as itself. -/
theorem Store.readsBack_of_namedKey? (hroot : context.document.root.DistinctNames)
    (h : context.namedKey? context.origin fields = some reference) :
    store.ReadsBack context reference := by
  obtain ⟨entry, hmem, rfl⟩ := Source.exists_named_of_namedKey? h
  have hsplit := Reference.split_of_startsHash (Document.startsHash_of_mem_named hmem)
  obtain ⟨steps, hlocate⟩ := Document.locate?_of_mem_named hroot hmem
  refine ⟨⟨context, steps, entry.node⟩, ?_, ?_⟩
  · refine Store.locate?_eq_some_iff.mpr ⟨?_, ?_⟩
    · rw [hsplit]
      rfl
    · change context.document.root.locate? (Reference.split entry.pointer).2 = _
      rw [hsplit]
      exact hlocate
  · rw [Target.canonical, Source.canonical, if_pos rfl, Reference.fragment, hsplit]

/-- A frame in the document worked on. -/
structure Frame.AtHome (context : Source) (frame : Frame) : Prop where
  home : frame.home = context.origin
  source : frame.source = context

theorem Frame.AtHome.goTo (h : frame.AtHome context) (path : String) :
    (frame.goTo path).AtHome context := ⟨h.home, h.source⟩

theorem Frame.AtHome.inside (h : frame.AtHome context) (fields : Fields Json) :
    (frame.inside fields).AtHome context :=
  ⟨(frame.inside_home fields).trans h.home, (frame.inside_source fields).trans h.source⟩

theorem Frame.AtHome.named_inside (h : frame.AtHome context) (fields : Fields Json) :
    (frame.inside fields).named = context.enclosing frame.named (.object fields) := by
  cases hmade : referenceOf? fields with
  | some reference => simp only [Frame.inside, Source.enclosing, hmade]
  | none => simp only [Frame.inside, Source.enclosing, hmade, Frame.enter, h.home, h.source]

theorem Settled.member (h : Settled store context frame.named (.object fields))
    (hroot : context.document.root.DistinctNames) (hframe : frame.AtHome context)
    (hname : isOpaqueKeyword name = false) (hmem : (name, part) ∈ fields) :
    Settled store context (frame.inside fields).named part := by
  obtain ⟨hkeys, hdistinct⟩ := Json.everyObject_object_iff.mp h.distinct
  have hget := Fields.get?_of_mem hkeys hmem
  have hopen : (Step.member name).isOpen = true := by simp [Step.isOpen, hname]
  rw [hframe.named_inside]
  refine ⟨(Json.everyObject_object_iff.mp h.lacks).2 name part hmem, hdistinct name part hmem,
    h.anchored.child hopen hget, fun reference hnamed => ?_⟩
  rcases Source.mem_enclosing_iff.mp hnamed with hnamed | ⟨members, -, -, hkey⟩
  · exact h.reads reference hnamed
  · exact Store.readsBack_of_namedKey? hroot hkey

theorem Settled.item (h : Settled store context named (.array items)) (hmem : part ∈ items) :
    Settled store context named part := by
  obtain ⟨index, hget⟩ := List.mem_iff_getElem?.mp hmem
  have hopen : (Step.item index).isOpen = true := rfl
  exact ⟨Json.everyObject_array_iff.mp h.lacks part hmem,
    Json.everyObject_array_iff.mp h.distinct part hmem,
    h.anchored.child hopen hget, h.reads⟩

/-- An anchored reference is left in place. -/
theorem Walk.treatment_of_anchored {target : Target}
    (h : Reference.fragment reference = "#" ∨ target.canonical frame.home reference ∈ frame.named) :
    Walk.treatment .standard frame reference target = .leave := by
  unfold Walk.treatment
  rcases h with h | h <;> simp [DereferenceOptions.standard, h]

/-- The reference that a settled object makes has a target, is the canonical form of it and
is left in place. -/
theorem Settled.refersTo (h : Settled store context frame.named (.object fields))
    (hframe : frame.AtHome context) (hmade : referenceOf? fields = some reference) :
    ∃ target, RefersTo store frame.source fields reference target ∧
      target.canonical frame.home reference = reference ∧
        Walk.treatment .standard frame reference target = .leave := by
  have hown := h.anchored.own hmade
  obtain ⟨target, hfound, hcanonical⟩ : store.ReadsBack context reference :=
    hown.elim And.right (h.reads reference)
  rw [← hframe.home] at hcanonical
  refine ⟨target, ⟨hmade, hframe.source ▸ hfound⟩, hcanonical, Walk.treatment_of_anchored ?_⟩
  rw [hcanonical]
  exact hown.imp_left And.left

end Parts

/-! ### Objects with their markers turned back -/

section Restored

variable {fields fields' : Fields Json} {reference : String}

/-- An object without a marker is as before when its members are. -/
theorem Json.restoreMarkers_object_beq (hkeys : Fields.keys fields' = Fields.keys fields)
    (hnames : (Fields.keys fields).Nodup) (hmarker : markerKeyword ∉ Fields.keys fields)
    (h : ∀ name part walked, Fields.get? fields name = some part →
      Fields.get? fields' name = some walked → (walked.restoreMarkers == part) = true) :
    ((Json.object fields').restoreMarkers == Json.object fields) = true := by
  have hkeys' : Fields.keys (Json.restoreMarkersFields fields') = Fields.keys fields := by
    rw [Json.keys_restoreMarkersFields, hkeys]
  rw [Json.restoreMarkers, restoreMarker,
    Fields.get?_eq_none_iff.mpr (by rwa [hkeys'])]
  refine Json.beq_object (hkeys'.symm ▸ hnames) hnames (fun name => by rw [hkeys']) ?_
  intro name x y hx hy
  rw [Json.get?_restoreMarkersFields] at hx
  obtain ⟨walked, hwalked, rfl⟩ := Option.map_eq_some_iff.mp hx
  exact h name y walked hy hwalked

/-- An object whose reference was left in place as it is written is as before when its other
members are. -/
theorem Json.restoreMarkers_left_beq (hkeys : Fields.keys fields' = Fields.keys fields)
    (hnames : (Fields.keys fields).Nodup) (hmarker : markerKeyword ∉ Fields.keys fields)
    (hmade : referenceOf? fields = some reference)
    (h : ∀ name part walked, Fields.get? fields name = some part →
      Fields.get? fields' name = some walked → (walked.restoreMarkers == part) = true) :
    ((Json.object (Fields.set (Fields.swapErase fields' "$ref") markerKeyword
      (.string reference))).restoreMarkers == Json.object fields) = true := by
  have hnames' : (Fields.keys fields').Nodup := hkeys.symm ▸ hnames
  have hget := Json.get?_restoreMarker_of_left reference hkeys hnames hmarker
  have hset := Fields.nodup_keys_set (Fields.nodup_keys_swapErase hnames' "$ref")
    markerKeyword (Json.string reference)
  have hown := referenceOf?_eq_some_iff.mp hmade
  -- The marker becomes the reference again, and no other member has changed its name.
  rw [Json.restoreMarkers]
  refine Json.beq_object
    (nodup_keys_restoreMarker (by rwa [Json.keys_restoreMarkersFields])) hnames ?_ ?_
  · intro name
    rw [← Fields.contains_iff, ← Fields.contains_iff, Fields.contains, Fields.contains, hget]
    by_cases href : name = "$ref"
    · rw [if_pos href, href, hown, Option.isSome_some]
    · rw [if_neg href, Option.isSome_map]
      change Fields.contains fields' name = true ↔ Fields.contains fields name = true
      rw [Fields.contains_iff, Fields.contains_iff, hkeys]
  · intro name x y hx hy
    rw [hget] at hx
    by_cases href : name = "$ref"
    · rw [if_pos href, Option.some.injEq] at hx
      rw [href, hown, Option.some.injEq] at hy
      rw [← hx, ← hy]
      exact Json.beq_self (Json.everyObject_scalar rfl rfl)
    · rw [if_neg href] at hx
      obtain ⟨walked, hwalked, rfl⟩ := Option.map_eq_some_iff.mp hx
      exact h name y walked hy hwalked

end Restored

/-! ### Walks of settled values -/

section Walks

variable {store : Store} {context : Source}

/-- Members that hold data stay as they are. -/
private theorem restoreMarkers_beq_self {value : Json} (hmarker : value.Lacks markerKeyword)
    (hnames : value.DistinctNames) : (value.restoreMarkers == value) = true := by
  rw [Json.restoreMarkers_of_lacks hmarker]
  exact Json.beq_self hnames

mutual

/-- **Settled values stay as they are** when they are walked. -/
theorem Settled.walks (hroot : context.document.root.DistinctNames) :
    ∀ {value : Json} (frame : Frame) (log : WalkLog),
    frame.AtHome context → Settled store context frame.named value →
      ∃ walked log', Walks ⟨store, .standard⟩ frame value log walked log' ∧
        (walked.restoreMarkers == value) = true
  | .null, _, log, _, h =>
    ⟨_, log, .scalar rfl rfl, restoreMarkers_beq_self h.lacks h.distinct⟩
  | .bool _, _, log, _, h =>
    ⟨_, log, .scalar rfl rfl, restoreMarkers_beq_self h.lacks h.distinct⟩
  | .number _, _, log, _, h =>
    ⟨_, log, .scalar rfl rfl, restoreMarkers_beq_self h.lacks h.distinct⟩
  | .string _, _, log, _, h =>
    ⟨_, log, .scalar rfl rfl, restoreMarkers_beq_self h.lacks h.distinct⟩
  | .array items, frame, log, hframe, h => by
    obtain ⟨items', log', hitems, hequal⟩ :=
      Settled.walksItems hroot frame 0 log hframe fun item hmem => h.item hmem
    refine ⟨.array items', log', .array hitems, ?_⟩
    rw [Json.restoreMarkers, Json.restoreMarkersItems_eq]
    exact Json.beq_array (List.forall₂_map_left_iff.mpr hequal)
  | .object fields, frame, log, hframe, h => by
    obtain ⟨hmarker, hlacks⟩ := Json.everyObject_object_iff.mp h.lacks
    obtain ⟨hnames, hdistinct⟩ := Json.everyObject_object_iff.mp h.distinct
    obtain ⟨fields', log', hmembers, hequal⟩ :=
      Settled.walksMembers hroot (frame.inside fields) log
        (hframe.inside fields)
        (fun name part hmem hname => h.member hroot hframe hname hmem) hlacks hdistinct
    cases hmade : referenceOf? fields with
    | none =>
      -- Nothing but its members changes the object.
      exact ⟨_, log', .object hmade hmembers,
        Json.restoreMarkers_object_beq hmembers.keys_eq hnames hmarker hequal⟩
    | some reference =>
      -- The marker holds what the reference was, and is turned back into it.
      obtain ⟨target, href, hcanonical, hleave⟩ := h.refersTo hframe hmade
      refine ⟨_, _, .leave href hleave hmembers, ?_⟩
      rw [hcanonical]
      exact Json.restoreMarkers_left_beq hmembers.keys_eq hnames hmarker hmade hequal

theorem Settled.walksMembers (hroot : context.document.root.DistinctNames) :
    ∀ {fields : Fields Json} (frame : Frame) (log : WalkLog),
    frame.AtHome context →
    (∀ name part, (name, part) ∈ fields → isOpaqueKeyword name = false →
      Settled store context frame.named part) →
    (∀ name part, (name, part) ∈ fields → part.Lacks markerKeyword) →
    (∀ name part, (name, part) ∈ fields → part.DistinctNames) →
      ∃ fields' log', WalksMembers ⟨store, .standard⟩ frame fields log fields' log' ∧
        ∀ name part walked, Fields.get? fields name = some part →
          Fields.get? fields' name = some walked → (walked.restoreMarkers == part) = true
  | [], _, log, _, _, _, _ => ⟨[], log, .nil, fun _ _ _ hpart _ => absurd hpart (by simp)⟩
  | (other, value) :: rest, frame, log, hframe, h, hlacks, hdistinct => by
    -- Every log will do for the rest, since the log does not decide what is left.
    have hrest : ∀ log, ∃ rest' log', WalksMembers ⟨store, .standard⟩ frame rest log rest' log' ∧
        ∀ name part walked, Fields.get? rest name = some part →
          Fields.get? rest' name = some walked → (walked.restoreMarkers == part) = true :=
      fun log => Settled.walksMembers hroot frame log hframe
        (fun name part hmem => h name part (List.mem_cons_of_mem _ hmem))
        (fun name part hmem => hlacks name part (List.mem_cons_of_mem _ hmem))
        (fun name part hmem => hdistinct name part (List.mem_cons_of_mem _ hmem))
    obtain ⟨walked, log', hstep, hequal⟩ : ∃ walked log',
        (∀ {rest' log''}, WalksMembers ⟨store, .standard⟩ frame rest log' rest' log'' →
          WalksMembers ⟨store, .standard⟩ frame ((other, value) :: rest) log
            ((other, walked) :: rest') log'') ∧ (walked.restoreMarkers == value) = true := by
      by_cases hname : isOpaqueKeyword other = true
      · exact ⟨value, log, fun hmembers => .data hname hmembers,
          restoreMarkers_beq_self (hlacks other value (List.mem_cons_self ..))
            (hdistinct other value (List.mem_cons_self ..))⟩
      · have hname : isOpaqueKeyword other = false := by simpa using hname
        obtain ⟨walked, log', hwalk, hequal⟩ := Settled.walks hroot (frame.member other)
          log (hframe.goTo _) (h other value (List.mem_cons_self ..) hname)
        exact ⟨walked, log', fun hmembers => .member hname hwalk hmembers, hequal⟩
    obtain ⟨rest', log'', hmembers, hothers⟩ := hrest log'
    refine ⟨_, log'', hstep hmembers, fun name part found hpart hfound => ?_⟩
    rw [Fields.get?_cons] at hpart hfound
    split at hpart
    · next heq =>
      rw [if_pos heq] at hfound
      rw [← Option.some.inj hpart, ← Option.some.inj hfound]
      exact hequal
    · next hne =>
      rw [if_neg hne] at hfound
      exact hothers name part found hpart hfound

theorem Settled.walksItems (hroot : context.document.root.DistinctNames) :
    ∀ {items : List Json} (frame : Frame) (index : Nat) (log : WalkLog),
    frame.AtHome context →
    (∀ item ∈ items, Settled store context frame.named item) →
      ∃ items' log', WalksItems ⟨store, .standard⟩ frame index items log items' log' ∧
        List.Forall₂ (fun walked item => (walked.restoreMarkers == item) = true) items' items
  | [], _, _, log, _, _ => ⟨[], log, .nil, .nil⟩
  | item :: rest, frame, index, log, hframe, h => by
    obtain ⟨walked, log', hwalk, hequal⟩ := Settled.walks hroot (frame.item index)
      log (hframe.goTo _) (h item (List.mem_cons_self ..))
    obtain ⟨rest', log'', hitems, hothers⟩ := Settled.walksItems hroot frame (index + 1)
      log' hframe fun other hmem => h other (List.mem_cons_of_mem _ hmem)
    exact ⟨_, log'', .item hwalk hitems, .cons hequal hothers⟩

end

end Walks

/-- Settled values stay as they are when they are dereferenced. -/
theorem Settled.dereferenceAt {store : Store} {context : store.Context} {value : Json}
    (h : Settled store context [] value) (hroot : context.document.root.DistinctNames)
    (path : String) :
    ∃ again, store.dereferenceAt .standard value context path = .ok again ∧
      (again.schema == value) = true := by
  obtain ⟨walked, log, hwalks, hequal⟩ :=
    Settled.walks hroot (.start context path) .empty ⟨rfl, rfl⟩ h
  exact ⟨_, dereferenceAt_eq_ok_iff.mpr ⟨walked, log, hwalks, rfl⟩, hequal⟩

/-- **Results stay as they are where titles are not lost**: the second run in the same
document succeeds, and its result is equal to the first.

Each reference that is left must be to a whole document, or to a schema of the document
worked on that goes by its own name, and then no title may stand beside a reference.  No
bundle may go by the empty id, nor another one by the id of the document worked on, since
references to it would not be read back. -/
theorem dereferenceAt_again {store : Store} {context : store.Context} {node : Json} {path : String}
    {result : Dereferenced} (path' : String) (hids : ∀ entry ∈ store.bundles, entry.1 ≠ "")
    (hown : context.Unrivalled)
    (hmarker : node.Lacks markerKeyword) (hnames : node.DistinctNames)
    (hroots : ∀ source ∈ store.sources context,
      source.document.root.Lacks markerKeyword ∧ source.document.root.DistinctNames)
    (h : store.dereferenceAt .standard node context path = .ok result)
    (hleft : ∀ broken ∈ result.unresolved, Reference.fragment broken.reference = "#" ∨
      Site.Untitled store ⟨context, node⟩ ∧ context.GoesByName broken.reference) :
    ∃ again, store.dereferenceAt .standard result.schema context path' = .ok again ∧
      (again.schema == result.schema) = true := by
  obtain ⟨hdistinct, hlacks⟩ :=
    distinctNames_of_dereferenceAt hnames (fun source hsource => (hroots source hsource).2) h
  have hanchored := anchored_of_dereferenceAt hids hown hmarker hnames hroots h hleft
  have hsettled : Settled store context [] result.schema :=
    ⟨hlacks, hdistinct, hanchored, fun _ hnamed => absurd hnamed List.not_mem_nil⟩
  exact hsettled.dereferenceAt (hroots _ (List.mem_cons_self ..)).2 path'

/-- A document with a schema that contains itself, one that is another name for it, and a
value without a name that contains itself. -/
def orchardDocument : Document := ⟨none, "Orchard", .object
  [("components", .object [("schemas", .object
      [("Tree", .object [("title", .string "Tree"), ("properties", .object
          [("left", .object [("$ref", .string "#/components/schemas/Tree")]),
            ("fruit", .object [("$ref", .string "#/components/schemas/Fruit")])])]),
        ("Fruit", .object [("title", .string "Fruit"), ("type", .string "string")]),
        ("Plant", .object
          [("$ref", .string "#/components/schemas/Tree"), ("title", .string "Plant")])])]),
    ("row", .object [("items", .object [("$ref", .string "#/row")])])]⟩

/-- The schema that contains itself, when it is dereferenced: within it the reference is
left. -/
def treeResult : Json := .object
  [("title", .string "Tree"), ("properties", .object
    [("left", .object [("$ref", .string "#/components/schemas/Tree")]),
      ("fruit", .object [("title", .string "Fruit"), ("type", .string "string")])])]

/-- A reference to the schema that contains itself. -/
def orchardReference : Json := .object [("$ref", .string "#/components/schemas/Tree")]

/-- All that the reference leads to. -/
private def orchardSites : List Site :=
  [orchardReference,
    .object [("title", .string "Tree"), ("properties", .object
      [("left", orchardReference),
        ("fruit", .object [("$ref", .string "#/components/schemas/Fruit")])])],
    .string "Tree",
    .object [("left", orchardReference),
      ("fruit", .object [("$ref", .string "#/components/schemas/Fruit")])],
    .object [("$ref", .string "#/components/schemas/Fruit")],
    .object [("title", .string "Fruit"), ("type", .string "string")],
    .string "Fruit", .string "string"].map fun value => ⟨orchardDocument.asContext, value⟩

private theorem untitled_orchardReference :
    Site.Untitled Store.empty ⟨orchardDocument.asContext, orchardReference⟩ := by
  intro site fields reference hsite hvalue hmade
  have hmem : site ∈ orchardSites :=
    Site.mem_of_follows (by decide +kernel) (by decide +kernel) hsite (by decide +kernel)
  -- Nothing stands beside the references.
  have hall : ∀ site ∈ orchardSites, site.made?.isSome = true →
      site.value.field? "title" = none ∧ site.value.field? "properties" = none := by
    decide +kernel
  have hsome : site.made?.isSome = true := by
    rw [Site.made?, hvalue, Json.object?_object, Option.bind_some, hmade]
    rfl
  obtain ⟨htitle, hproperties⟩ := hall site hmem hsome
  rw [hvalue] at htitle hproperties
  refine ⟨Fields.get?_eq_none_iff.mp htitle, fun inner hinner => ?_⟩
  cases hproperties.symm.trans hinner

/-- The object with the title `Tree` anchors the reference that is left within it. -/
theorem dereferenceAt_again_orchardDocument :
    orchardReference.Lacks markerKeyword ∧ orchardReference.DistinctNames ∧
      (∀ source ∈ Store.empty.sources orchardDocument.asContext,
        source.document.root.Lacks markerKeyword ∧ source.document.root.DistinctNames) ∧
      Site.Untitled Store.empty ⟨orchardDocument.asContext, orchardReference⟩ ∧
      orchardDocument.asContext.GoesByName "#/components/schemas/Tree" ∧
      ∃ again, Store.empty.dereferenceAt .standard treeResult orchardDocument "#" = .ok again ∧
        (again.schema == treeResult) = true := by
  have hmarker : orchardReference.Lacks markerKeyword := by decide +kernel
  have hnames : orchardReference.DistinctNames := by decide +kernel
  have hroots : ∀ source ∈ Store.empty.sources orchardDocument.asContext,
      source.document.root.Lacks markerKeyword ∧ source.document.root.DistinctNames := by
    decide +kernel
  have hgoes : orchardDocument.asContext.GoesByName "#/components/schemas/Tree" := by decide +kernel
  have hrun := @eq_ok_of_toOption
    (Store.empty.dereferenceAt .standard orchardReference orchardDocument "#")
    ⟨treeResult, [⟨"#/properties/left", "#/components/schemas/Tree"⟩], []⟩ (by decide +kernel)
  have hagain := dereferenceAt_again "#" (by decide +kernel) (.own (by decide +kernel)) hmarker
    hnames hroots hrun fun broken hbroken =>
      Or.inr ⟨untitled_orchardReference, List.mem_singleton.mp hbroken ▸ hgoes⟩
  exact ⟨hmarker, hnames, hroots, untitled_orchardReference, hgoes, hagain⟩

/-! ### Results that change -/

/-- Dereferencing twice is dereferencing once. -/
def Store.Repeats (store : Store) (context : store.Context) (node : Json) : Prop :=
  ∀ result, store.dereferenceAt .standard node context "#" = .ok result →
    ∃ again, store.dereferenceAt .standard result.schema context "#" = .ok again ∧
      (again.schema == result.schema) = true

instance (store : Store) (context : store.Context) (node : Json) :
    Decidable (store.Repeats context node) :=
  decidable_of_iff
    (∀ result ∈ (store.dereferenceAt .standard node context "#").toOption,
      ∃ again ∈ (store.dereferenceAt .standard result.schema context "#").toOption,
        (again.schema == result.schema) = true) <| by
    simp only [Store.Repeats, Option.mem_def, toOption_eq_some_iff]

/-- Results change where the schema that contains itself is that of a bundle, where it is
referred to by another name, where it is given another title, and where it has no name. -/
theorem not_repeats_orchardDocument :
    ¬ mutualBundles.Repeats plainDocument firstReference ∧
      ∀ node ∈ [.object [("$ref", .string "#/components/schemas/Plant")],
        .object [("$ref", .string "#/components/schemas/Tree"), ("title", .string "Oak")],
        .object [("$ref", .string "#/row")]],
          ¬ Store.empty.Repeats orchardDocument node := by
  decide +kernel

end RpcSchema
