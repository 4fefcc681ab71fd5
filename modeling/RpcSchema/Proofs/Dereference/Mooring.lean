import RpcSchema.Proofs.Dereference.Anchors
import RpcSchema.Proofs.Dereference.Sites
import RpcSchema.Proofs.Document

/-!
# Walks that leave anchored references

The title that anchors a reference can get lost in two ways: by a title beside the reference
that the target is copied for, and by the target being no object that goes by its own name.
Where neither happens, all references in a result are anchored.

The walk of a target knows more than its result will show: that the target is being
expanded.  What the result shows is what the value that is put together from the target
stands for.  A walk is *moored* when all it knows that matters is known to stand in the
result; the induction over a walk carries this from a value to its parts and to targets.

## Main definitions

* `Source.GoesByName` — a reference to a schema that goes by its own name.
* `Site.Untitled` — no title stands beside a reference.
* `Moored` — what is known of a value that is walked, the result stands for.

## Main results

* `Walks.anchored` — a walk leaves only references that will be anchored.
* `anchored_of_dereferenceAt` — so all references in a result are anchored.
-/

namespace RpcSchema

open Relation

/-- A reference within a document is to an object that makes no reference itself, and is
taken for the schema that the reference is to. -/
def Source.GoesByName (context : Source) (reference : String) : Prop :=
  ∃ steps fields, context.document.root.locate? reference = some (steps, .object fields) ∧
    referenceOf? fields = none ∧ context.namedKey? context.origin fields = some reference

instance (context : Source) (reference : String) : Decidable (context.GoesByName reference) :=
  decidable_of_iff
    (∃ place ∈ context.document.root.locate? reference, ∃ fields ∈ place.2.object?,
      referenceOf? fields = none ∧ context.namedKey? context.origin fields = some reference) <| by
    constructor
    · rintro ⟨⟨steps, node⟩, hlocate, fields, hobject, hnone, hkey⟩
      cases node with
      | object members =>
        obtain rfl := Option.some.inj hobject
        exact ⟨steps, members, hlocate, hnone, hkey⟩
      | _ => cases hobject
    · rintro ⟨steps, fields, hlocate, hnone, hkey⟩
      exact ⟨_, hlocate, fields, rfl, hnone, hkey⟩

/-- No title stands beside a reference, nor among the properties beside one, and these make
no reference. -/
def Site.Untitled (store : Store) (start : Site) : Prop :=
  ∀ site fields reference, ReflTransGen (Site.Follows store) start site →
    site.value = .object fields → referenceOf? fields = some reference →
      "title" ∉ Fields.keys fields ∧
        ∀ inner, Fields.get? fields "properties" = some (.object inner) →
          "title" ∉ Fields.keys inner ∧ "$ref" ∉ Fields.keys inner

/-- A reference that is logged as left, and is not to a whole document. -/
def LeftPart (logged : List BrokenCycle) (reference : String) : Prop :=
  reference ∈ logged.map BrokenCycle.reference ∧ Reference.fragment reference ≠ "#"

/-- What is known of a value that is walked where the result stands for the schemas `named`:
these are all that are left of what is being expanded, and of what encloses the value. -/
structure Moored {store : Store} (context : store.Context) (logged : List BrokenCycle)
    (named : List String) (frame : Frame) (value : Json) : Prop where
  stands : frame.Stands context
  lacks : value.Lacks markerKeyword
  distinct : value.DistinctNames
  untitled : Site.Untitled store ⟨frame.source, value⟩
  known : ∀ key, key ∈ frame.named ∨ key ∈ frame.expanding → LeftPart logged key → key ∈ named

/-! ### References within the document -/

section Walks

variable {store : Store} {context : store.Context} {logged : List BrokenCycle}
  {named named' : List String} {frame : Frame} {fields fields' : Fields Json} {items : List Json}
  {name key reference : String} {part : Json} {target : Target}

/-- What is taken for a schema of the document it stands in has the pointer of a named schema
as its key. -/
theorem Source.exists_named_of_namedKey? {source : Source}
    (h : source.namedKey? source.origin fields = some reference) :
    ∃ entry ∈ source.document.named, entry.pointer = reference := by
  obtain ⟨pointer, hpointer, rfl⟩ := Option.map_eq_some_iff.mp h
  obtain ⟨title, -, htitle⟩ := Option.bind_eq_some_iff.mp hpointer
  obtain ⟨entry, hentry, rfl⟩ := Option.map_eq_some_iff.mp htitle
  exact ⟨entry, List.mem_of_find?_eq_some hentry, (if_pos rfl).symm⟩

theorem Source.startsHash_of_namedKey? {source : Source}
    (h : source.namedKey? source.origin fields = some reference) :
    Reference.StartsHash reference := by
  obtain ⟨entry, hmem, rfl⟩ := Source.exists_named_of_namedKey? h
  exact Document.startsHash_of_mem_named hmem

/-- References within a document are not the canonical forms of those into bundles. -/
theorem Store.Stands.eq_context (hids : ∀ entry ∈ store.bundles, entry.1 ≠ "") {source : Source}
    (h : store.Stands context source) {fragment : String}
    (hhash : Reference.StartsHash (source.canonical context.origin fragment)) :
    source = context := by
  rcases h with hcontext | ⟨horigin, id, document, hdocument, hid, hbundle⟩
  · exact hcontext
  · have hne := hids _ (Fields.mem_of_get? hdocument)
    obtain ⟨rest, hrest⟩ := hhash
    rw [Source.canonical, if_neg horigin, hbundle, Store.id_of_bundle? hdocument,
      Option.getD_some, String.toList_append] at hrest
    cases hcs : id.toList with
    | nil => exact absurd (String.toList_eq_nil_iff.mp hcs) hne
    | cons c cs =>
      rw [hcs, List.cons_append] at hrest
      exact absurd (hcs ▸ (List.cons.inj hrest).1 ▸ List.mem_cons_self ..) hid

/-- A target that goes by its own name is an object that is taken for it. -/
theorem RefersTo.node_of_goesByName (href : RefersTo store frame.source fields reference target)
    (hids : ∀ entry ∈ store.bundles, entry.1 ≠ "") (hstands : frame.Stands context)
    (h : context.GoesByName (target.canonical frame.home reference)) :
    ∃ inner, target.node = .object inner ∧ referenceOf? inner = none ∧
      context.namedKey? context.origin inner = some (target.canonical frame.home reference) := by
  rw [hstands.home] at h ⊢
  obtain ⟨steps, inner, hlocate, hnone, hkey⟩ := h
  have hsource : target.source = context :=
    (hstands.source.locate? href.found).eq_context hids (Source.startsHash_of_namedKey? hkey)
  have hfound := (Store.locate?_eq_some_iff.mp href.found).2
  rw [hsource] at hfound
  have hcanonical : target.canonical context.origin reference = Reference.fragment reference := by
    rw [Target.canonical, hsource, Source.canonical, if_pos rfl]
  rw [hcanonical] at hlocate
  have heq := Option.some.inj (hfound.symm.trans hlocate)
  exact ⟨inner, (Prod.mk.inj heq).2, hnone, hkey⟩

/-- A reference is left only where it is known to be circular. -/
theorem Walk.cycle_of_leave (h : Walk.treatment .standard frame reference target = .leave) :
    Reference.fragment reference = "#" ∨ target.canonical frame.home reference ∈ frame.expanding ∨
      target.canonical frame.home reference ∈ frame.named := by
  unfold Walk.treatment at h
  grind [DereferenceOptions.standard]

/-! ### Walked objects -/

/-- Texts stay as they are. -/
theorem WalksMembers.get?_of_string {setting : WalkSetting} {log log' : WalkLog} {text : String}
    (h : WalksMembers setting frame fields log fields' log')
    (hget : Fields.get? fields name = some (.string text)) :
    Fields.get? fields' name = some (.string text) := by
  by_cases hname : isOpaqueKeyword name = true
  · rw [h.get?_of_opaque hname, hget]
  · have hname : isOpaqueKeyword name = false := by simpa using hname
    have hmem : name ∈ Fields.keys fields' := by
      rw [h.keys_eq]
      exact Fields.mem_keys_of_mem (Fields.mem_of_get? hget)
    obtain ⟨walked, hwalked⟩ := Option.isSome_iff_exists.mp (Fields.contains_iff.mpr hmem)
    obtain ⟨part, before, after, hpart, hwalk, -⟩ := h.of_get? hname hwalked
    obtain rfl := Option.some.inj (hget.symm.trans hpart)
    cases hwalk with
    | scalar => exact hwalked

/-- An object that makes no reference makes none when it is walked. -/
theorem WalksMembers.referenceOf?_eq_none {setting : WalkSetting} {log log' : WalkLog}
    (h : WalksMembers setting frame fields log fields' log')
    (hnames : (Fields.keys fields).Nodup) (hmarker : markerKeyword ∉ Fields.keys fields)
    (hnone : referenceOf? fields = none) :
    referenceOf? (restoreMarker (Json.restoreMarkersFields fields')) = none := by
  have hmarker' : Fields.get? fields' markerKeyword = none :=
    Fields.get?_eq_none_iff.mpr (h.keys_eq ▸ hmarker)
  rw [referenceOf?, get?_restoreMarker (by rwa [Json.keys_restoreMarkersFields, h.keys_eq]),
    if_pos rfl, Json.get?_restoreMarkersFields, Json.get?_restoreMarkersFields, hmarker',
    Option.map_none, Option.none_or, h.get?_of_opaque (by decide), Option.bind_map]
  exact (congrArg _ (funext Json.string?_restoreMarkers)).trans hnone

/-- What an object is taken for, its walked form stands for. -/
theorem WalksMembers.mem_enclosing {setting : WalkSetting} {log log' : WalkLog}
    (h : WalksMembers setting frame fields log fields' log')
    (hnames : (Fields.keys fields).Nodup) (hmarker : markerKeyword ∉ Fields.keys fields)
    (hnone : referenceOf? fields = none)
    (hkey : context.namedKey? context.origin fields = some key) :
    key ∈ context.enclosing named (Json.object fields').restoreMarkers := by
  refine Source.mem_enclosing_iff.mpr
    (Or.inr ⟨_, rfl, h.referenceOf?_eq_none hnames hmarker hnone, ?_⟩)
  obtain ⟨pointer, hpointer, rfl⟩ := Option.map_eq_some_iff.mp hkey
  obtain ⟨title, htitle, hfound⟩ := Option.bind_eq_some_iff.mp hpointer
  obtain ⟨value, hvalue, hstring⟩ := Option.bind_eq_some_iff.mp htitle
  cases value with
  | string text =>
    obtain rfl := Option.some.inj hstring
    have htitle' : Fields.get? (restoreMarker (Json.restoreMarkersFields fields')) "title"
        = some (.string text) := by
      rw [get?_restoreMarker (by rwa [Json.keys_restoreMarkersFields, h.keys_eq]),
        if_neg (by decide), if_neg (by decide), Json.get?_restoreMarkersFields,
        h.get?_of_string hvalue]
      rfl
    rw [Source.namedKey?, htitle', Option.bind_some, Json.string?_string, Option.bind_some,
      hfound]
    rfl
  | _ => cases hstring

/-- An object that makes no reference is walked member by member. -/
theorem Walks.exists_members {setting : WalkSetting} {log log' : WalkLog} {walked : Json}
    (h : Walks setting frame (.object fields) log walked log')
    (hnone : referenceOf? fields = none) :
    ∃ fields', walked = .object fields' ∧
      WalksMembers setting (frame.inside fields) fields log fields' log' := by
  cases h with
  | scalar hobject => cases hobject
  | object _ hmembers => exact ⟨_, rfl, hmembers⟩
  | keep href | copied href | copy href | leave href | inline href =>
    rw [href.made] at hnone
    cases hnone

/-- An object comes only from an object. -/
theorem Walks.isObject_eq_false {setting : WalkSetting} {log log' : WalkLog} {value walked : Json}
    (h : Walks setting frame value log walked log') (hobject : value.isObject = false) :
    walked.isObject = false := by
  cases h with
  | scalar => exact hobject
  | array => rfl
  | _ => cases hobject

/-! ### One step -/

theorem Site.Untitled.follows {start next : Site} (h : Site.Untitled store start)
    (hnext : Site.Follows store start next) : Site.Untitled store next :=
  fun site fields reference hsite => h site fields reference (hsite.head hnext)

/-- Where a value stands in the result makes no difference. -/
theorem Moored.goTo {value : Json} (h : Moored context logged named frame value)
    (path : String) : Moored context logged named (frame.goTo path) value :=
  ⟨h.stands.goTo path, h.lacks, h.distinct, h.untitled, h.known⟩

theorem Moored.member (h : Moored context logged named frame (.object fields))
    (hname : isOpaqueKeyword name = false) (hmem : (name, part) ∈ fields)
    (hknown : ∀ key, key ∈ (frame.inside fields).named ∨ key ∈ frame.expanding →
      LeftPart logged key → key ∈ named') :
    Moored context logged named' (frame.inside fields) part where
  stands := h.stands.inside fields
  lacks := (Json.everyObject_object_iff.mp h.lacks).2 name part hmem
  distinct := (Json.everyObject_object_iff.mp h.distinct).2 name part hmem
  untitled := by
    rw [Frame.inside_source]
    exact h.untitled.follows
      (Or.inl (List.mem_map.mpr ⟨_, List.mem_filter.mpr ⟨hmem, by simp [hname]⟩, rfl⟩))
  known := by rwa [Frame.inside_expanding]

/-- What stands beside a reference is walked with what encloses the object. -/
theorem Moored.beside (h : Moored context logged named frame (.object fields))
    (hmade : referenceOf? fields = some reference) (hname : isOpaqueKeyword name = false)
    (hmem : (name, part) ∈ fields) :
    Moored context logged named (frame.inside fields) part := by
  refine h.member hname hmem fun key hkey => h.known key ?_
  rwa [Frame.inside_of_some hmade] at hkey

theorem Moored.item (h : Moored context logged named frame (.array items))
    (hmem : part ∈ items) : Moored context logged named frame part where
  stands := h.stands
  lacks := Json.everyObject_array_iff.mp h.lacks part hmem
  distinct := Json.everyObject_array_iff.mp h.distinct part hmem
  untitled := h.untitled.follows (Or.inl (List.mem_map.mpr ⟨part, hmem, rfl⟩))
  known := h.known

/-- A target is walked as what it is known to stand for, if the reference is left anywhere. -/
theorem Moored.expand (h : Moored context logged named frame (.object fields))
    (hroots : ∀ source ∈ store.sources context,
      source.document.root.Lacks markerKeyword ∧ source.document.root.DistinctNames)
    (href : RefersTo store frame.source fields reference target) (hsubset : named ⊆ named')
    (hself : LeftPart logged (target.canonical frame.home reference) →
      target.canonical frame.home reference ∈ named') :
    Moored context logged named'
      (frame.expand target.source (target.canonical frame.home reference)) target.node := by
  have hlacks := Store.everyObject_of_locate? href.found h.stands.source.mem_sources
    fun source hsource => (hroots source hsource).1
  have hdistinct := Store.everyObject_of_locate? href.found h.stands.source.mem_sources
    fun source hsource => (hroots source hsource).2
  refine ⟨h.stands.expand href.found, hlacks, hdistinct,
    h.untitled.follows (Or.inr href.target?), fun key hkey hpart => ?_⟩
  rcases hkey with hnamed | hexpanding
  · exact hsubset (h.known key (Or.inl hnamed) hpart)
  · rcases List.mem_cons.mp hexpanding with rfl | hexpanding
    · exact hself hpart
    · exact hsubset (h.known key (Or.inr hexpanding) hpart)

/-- What is walked beside a reference is bare, and so are the properties among it. -/
theorem Moored.bare {log log' : WalkLog} {options : DereferenceOptions}
    (h : Moored context logged named frame (.object fields))
    (hmade : referenceOf? fields = some reference)
    (hmembers : WalksMembers ⟨store, options⟩ (frame.inside fields) fields log fields' log') :
    Bare (Fields.swapErase fields' "$ref") ∧ ∀ inner,
      Fields.get? (Fields.swapErase fields' "$ref") "properties" = some (.object inner) →
        Bare inner := by
  obtain ⟨hmarker, hlacks⟩ := Json.everyObject_object_iff.mp h.lacks
  have hnames : (Fields.keys fields').Nodup :=
    hmembers.keys_eq ▸ (Json.everyObject_object_iff.mp h.distinct).1
  obtain ⟨htitle, hproperties⟩ := h.untitled _ fields reference .refl rfl hmade
  constructor
  · -- The reference was taken out, and the others were not there before the walk.
    rintro name (rfl | rfl | rfl)
    · exact Fields.get?_swapErase_self hnames _
    · rw [Fields.get?_swapErase_of_ne hnames markerKeyword_ne,
        Fields.get?_eq_none_iff, hmembers.keys_eq]
      exact hmarker
    · rw [Fields.get?_swapErase_of_ne hnames (by decide), Fields.get?_eq_none_iff,
        hmembers.keys_eq]
      exact htitle
  · intro inner hinner
    rw [Fields.get?_swapErase_of_ne hnames (by decide)] at hinner
    obtain ⟨part, before, after, hpart, hwalk, -⟩ := hmembers.of_get? (by decide) hinner
    cases part with
    | object written =>
      obtain ⟨htitle, href⟩ := hproperties written hpart
      have hnone : referenceOf? written = none := by
        rw [referenceOf?, Fields.get?_eq_none_iff.mpr href]
        rfl
      obtain ⟨walked, heq, hwritten⟩ := hwalk.exists_members hnone
      obtain rfl := Json.object.inj heq
      have hmarker' := (Json.everyObject_object_iff.mp
        (hlacks _ _ (Fields.mem_of_get? hpart))).1
      rintro name (rfl | rfl | rfl)
      · exact Fields.get?_eq_none_iff.mpr (hwritten.keys_eq ▸ href)
      · exact Fields.get?_eq_none_iff.mpr (hwritten.keys_eq ▸ hmarker')
      · exact Fields.get?_eq_none_iff.mpr (hwritten.keys_eq ▸ htitle)
    | _ => cases hwalk.isObject_eq_false rfl

/-- A reference that is left is to a whole document, or to a schema that the result stands
for. -/
theorem Moored.of_leave (h : Moored context logged named frame (.object fields))
    (hids : ∀ entry ∈ store.bundles, entry.1 ≠ "")
    (hown : context.Unrivalled)
    (href : RefersTo store frame.source fields reference target)
    (htreat : Walk.treatment .standard frame reference target = .leave)
    (hmem : target.canonical frame.home reference ∈ logged.map BrokenCycle.reference) :
    store.ReadsWhole context (target.canonical frame.home reference) ∨
      target.canonical frame.home reference ∈ named := by
  have hhome : frame.home = context.origin := h.stands.home
  have hsource : store.Stands context frame.source := h.stands.source
  by_cases hwhole : Reference.fragment (target.canonical frame.home reference) = "#"
  · have hback := Store.readsBack_canonical hids hown hsource href.found
    exact Or.inl ⟨hwhole, hhome ▸ hback⟩
  · have hfragment' : Reference.fragment (target.canonical frame.home reference)
        = Reference.fragment reference := by
      rw [hhome]
      exact (hsource.locate? href.found).fragment_canonical hids
    rcases Walk.cycle_of_leave htreat with hfragment | hexpanding | hnamed
    · exact absurd (hfragment'.trans hfragment) hwhole
    · exact Or.inr (h.known _ (Or.inr hexpanding) ⟨hmem, hwhole⟩)
    · exact Or.inr (h.known _ (Or.inl hnamed) ⟨hmem, hwhole⟩)

/-- What encloses the members of an object is known of what the result stands for. -/
theorem Moored.known_inside (h : Moored context logged named frame (.object fields))
    (hids : ∀ entry ∈ store.bundles, entry.1 ≠ "")
    (hleft : ∀ key, LeftPart logged key → context.GoesByName key)
    (hnone : referenceOf? fields = none) {setting : WalkSetting} {log log' : WalkLog}
    (hmembers : WalksMembers setting (frame.inside fields) fields log fields' log') :
    ∀ key, key ∈ (frame.inside fields).named ∨ key ∈ frame.expanding → LeftPart logged key →
      key ∈ context.enclosing named (Json.object fields').restoreMarkers := by
  intro key hkey hpart
  have hhome : frame.home = context.origin := h.stands.home
  rw [Frame.inside_of_none hnone, Frame.enter, List.mem_append, hhome] at hkey
  rcases hkey with (hself | hnamed) | hexpanding
  · -- An object that stands for a schema of a bundle anchors nothing, but then nothing is left
    -- to be anchored by it: what is left goes by its own name in the document worked on.
    have hself := Option.mem_toList.mp hself
    obtain ⟨steps, inner, -, -, hgoes⟩ := hleft key hpart
    obtain ⟨pointer, hpointer, hcanonical⟩ := Option.map_eq_some_iff.mp hself
    have hsource : frame.source = context :=
      h.stands.source.eq_context hids (hcanonical ▸ Source.startsHash_of_namedKey? hgoes)
    rw [hsource] at hself
    exact hmembers.mem_enclosing (Json.everyObject_object_iff.mp h.distinct).1
      (Json.everyObject_object_iff.mp h.lacks).1 hnone hself
  · exact Source.subset_enclosing (h.known key (Or.inl hnamed) hpart)
  · exact Source.subset_enclosing (h.known key (Or.inr hexpanding) hpart)

/-- **Anchors hold when a reference gives way to its target**: what is known of the target
besides is that it stands for the reference, if that is left anywhere. -/
theorem Moored.anchored_inline {log log' log'' : WalkLog} {walked : Json}
    (h : Moored context logged named frame (.object fields))
    (hids : ∀ entry ∈ store.bundles, entry.1 ≠ "")
    (hroots : ∀ source ∈ store.sources context,
      source.document.root.Lacks markerKeyword ∧ source.document.root.DistinctNames)
    (hleft : ∀ key, LeftPart logged key → context.GoesByName key)
    (href : RefersTo store frame.source fields reference target)
    (hmembers : WalksMembers ⟨store, .standard⟩ (frame.inside fields) fields log fields' log')
    (htarget : Walks ⟨store, .standard⟩
      (frame.expand target.source (target.canonical frame.home reference))
      target.node log' walked log'')
    (hparts : ∀ name part, (name, part) ∈ fields' → isOpaqueKeyword name = false →
      part.restoreMarkers.Anchored store context named)
    (hexpanded : ∀ {named}, Moored context logged named
      (frame.expand target.source (target.canonical frame.home reference)) target.node →
        walked.restoreMarkers.Anchored store context named) :
    (overlayTarget (Fields.swapErase fields' "$ref") walked).restoreMarkers.Anchored store context
      named := by
  have hroots' := fun source hsource => (hroots source hsource).2
  obtain ⟨hbare, hproperties⟩ := h.bare href.made hmembers
  have hbeside := (hmembers.distinctNames_object h.distinct
    (hmembers.distinctNames hroots' (h.stands.inside _))).swapErase "$ref"
  have hbesideParts : ∀ name part, isOpaqueKeyword name = false →
      Fields.get? (Fields.swapErase fields' "$ref") name = some part →
        part.restoreMarkers.Anchored store context named := fun name part hname hget =>
    hparts name part (Fields.mem_of_mem_swapErase (Fields.mem_of_get? hget)) hname
  -- While the target is walked, the reference may be left within it.  What stands for it in
  -- the result then is the target itself, which `of_cons` takes off again.
  by_cases hpart : LeftPart logged (target.canonical frame.home reference)
  · have hmoored := h.expand hroots href
      (List.subset_cons_self (target.canonical frame.home reference) named)
      fun _ => List.mem_cons_self ..
    have hwalkedNames := htarget.distinctNames hroots' hmoored.stands hmoored.distinct
    have hanchored := Json.anchored_overlayTarget hbeside hwalkedNames hbare hproperties
      (List.subset_cons_self ..) hbesideParts (hexpanded hmoored)
    refine hanchored.of_cons ?_
    -- The target is taken for the schema, and the keywords laid over it leave its title.
    obtain ⟨inner, hnode, hnone, hkey⟩ := href.node_of_goesByName hids h.stands (hleft _ hpart)
    have hlacks := hmoored.lacks
    have hdistinct := hmoored.distinct
    rw [hnode] at htarget hlacks hdistinct
    obtain ⟨theirs, rfl, hinner⟩ := htarget.exists_members hnone
    rw [Json.enclosing_overlay hbeside hwalkedNames hbare]
    exact hinner.mem_enclosing (Json.everyObject_object_iff.mp hdistinct).1
      (Json.everyObject_object_iff.mp hlacks).1 hnone hkey
  · have hmoored := h.expand hroots href (List.Subset.refl named) fun h => absurd h hpart
    exact Json.anchored_overlayTarget hbeside
      (htarget.distinctNames hroots' hmoored.stands hmoored.distinct) hbare hproperties
      (List.Subset.refl _) hbesideParts (hexpanded hmoored)

/-- Anchors hold when a reference is left. -/
theorem Moored.anchored_leave {log log' : WalkLog}
    (h : Moored context logged named frame (.object fields))
    (hids : ∀ entry ∈ store.bundles, entry.1 ≠ "")
    (hown : context.Unrivalled)
    (href : RefersTo store frame.source fields reference target)
    (htreat : Walk.treatment .standard frame reference target = .leave)
    (hmembers : WalksMembers ⟨store, .standard⟩ (frame.inside fields) fields log fields' log')
    (hmem : target.canonical frame.home reference ∈ logged.map BrokenCycle.reference)
    (hparts : ∀ name part, (name, part) ∈ fields' → isOpaqueKeyword name = false →
      part.restoreMarkers.Anchored store context named) :
    (Json.object (Fields.set (Fields.swapErase fields' "$ref") markerKeyword
      (.string (target.canonical frame.home reference)))).restoreMarkers.Anchored store context
        named := by
  obtain ⟨hnames, -⟩ := Json.everyObject_object_iff.mp h.distinct
  obtain ⟨hmarker, -⟩ := Json.everyObject_object_iff.mp h.lacks
  have hnames' : (Fields.keys fields').Nodup := hmembers.keys_eq ▸ hnames
  have hset := Fields.nodup_keys_set (Fields.nodup_keys_swapErase hnames' "$ref")
    markerKeyword (Json.string (target.canonical frame.home reference))
  refine Json.anchored_object hset (fun other hmade => ?_) fun name value hname hne hvalue => ?_
  · rw [referenceOf?, Json.get?_restoreMarker_of_left _ hmembers.keys_eq hnames hmarker,
      if_pos rfl] at hmade
    obtain rfl := Option.some.inj hmade
    exact h.of_leave hids hown href htreat hmem
  · rw [Fields.get?_set_of_ne _ _ hne] at hvalue
    exact (hparts name value (Fields.mem_of_mem_swapErase (Fields.mem_of_get? hvalue)) hname).mono
      Source.subset_enclosing

/-! ### Walks -/

mutual

/-- **A walk leaves only references that will be anchored.** -/
theorem Walks.anchored (hids : ∀ entry ∈ store.bundles, entry.1 ≠ "")
    (hown : context.Unrivalled)
    (hroots : ∀ source ∈ store.sources context,
      source.document.root.Lacks markerKeyword ∧ source.document.root.DistinctNames)
    (hleft : ∀ key, LeftPart logged key → context.GoesByName key) {named : List String}
    {frame : Frame} {value walked : Json} {log log' : WalkLog} :
    Walks ⟨store, .standard⟩ frame value log walked log' → log'.unresolved ⊆ logged →
      Moored context logged named frame value →
        walked.restoreMarkers.Anchored store context named
  | .scalar hobject harray, _, _ => by
    cases value with
    | object fields => cases hobject
    | array items => cases harray
    | _ => exact Json.anchored_scalar rfl rfl
  | .array hitems, hlogged, h =>
    Json.anchored_array_iff.mpr
      (hitems.anchored hids hown hroots hleft hlogged fun item hmem => h.item hmem)
  | .object hnone hmembers, hlogged, h => by
    have hnames := (Json.everyObject_object_iff.mp h.distinct).1
    have hparts := hmembers.anchored hids hown hroots hleft hlogged fun name part hmem hname =>
      h.member hname hmem (h.known_inside hids hleft hnone hmembers)
    refine Json.anchored_object (hmembers.keys_eq ▸ hnames) (fun reference hmade => ?_)
      fun name value hname _ hvalue => hparts name value (Fields.mem_of_get? hvalue) hname
    rw [hmembers.referenceOf?_eq_none hnames (Json.everyObject_object_iff.mp h.lacks).1 hnone]
      at hmade
    cases hmade
  -- No reference is kept and none is turned into a local one.
  | .keep _ htreat _, _, _ => by
    cases (Walk.treatment_eq_keep_iff.mp htreat).1
  | .copied _ htreat _ _, _, _ => by
    cases (Walk.origin_ne_context_of_copy htreat).1
  | .copy _ htreat _ _ _ _, _, _ => by
    cases (Walk.origin_ne_context_of_copy htreat).1
  | .leave href htreat hmembers, hlogged, h => by
    have hparts := hmembers.anchored hids hown hroots hleft
      (List.Subset.trans (List.subset_append_left _ _) hlogged) fun name part hmem hname =>
        h.beside href.made hname hmem
    exact h.anchored_leave hids hown href htreat hmembers (List.mem_map.mpr
      ⟨_, hlogged (List.mem_append_right _ (List.mem_singleton_self _)), rfl⟩) hparts
  | .inline href _ hmembers htarget, hlogged, h => by
    have hparts := hmembers.anchored hids hown hroots hleft
      (List.Subset.trans htarget.unresolved_subset hlogged) fun name part hmem hname =>
        h.beside href.made hname hmem
    exact h.anchored_inline hids hroots hleft href hmembers htarget hparts fun hmoored =>
      htarget.anchored hids hown hroots hleft hlogged hmoored

theorem WalksMembers.anchored (hids : ∀ entry ∈ store.bundles, entry.1 ≠ "")
    (hown : context.Unrivalled)
    (hroots : ∀ source ∈ store.sources context,
      source.document.root.Lacks markerKeyword ∧ source.document.root.DistinctNames)
    (hleft : ∀ key, LeftPart logged key → context.GoesByName key) {named : List String}
    {frame : Frame} {fields fields' : Fields Json} {log log' : WalkLog} :
    WalksMembers ⟨store, .standard⟩ frame fields log fields' log' →
      log'.unresolved ⊆ logged →
      (∀ name part, (name, part) ∈ fields → isOpaqueKeyword name = false →
        Moored context logged named frame part) →
        ∀ name part, (name, part) ∈ fields' → isOpaqueKeyword name = false →
          part.restoreMarkers.Anchored store context named
  | .nil, _, _ => fun _ _ hmem => absurd hmem List.not_mem_nil
  | .data hname hrest, hlogged, h => by
    have hothers := hrest.anchored hids hown hroots hleft hlogged
      fun name part hmem => h name part (List.mem_cons_of_mem _ hmem)
    intro other part hmem hopen
    rcases List.mem_cons.mp hmem with heq | hmem
    · rw [(Prod.mk.inj heq).1, hname] at hopen
      cases hopen
    · exact hothers other part hmem hopen
  | .member hname hpart hrest, hlogged, h => by
    have hwalked := hpart.anchored hids hown hroots hleft
      (List.Subset.trans hrest.unresolved_subset hlogged)
      ((h _ _ (List.mem_cons_self ..) hname).goTo _)
    have hothers := hrest.anchored hids hown hroots hleft hlogged
      fun name part hmem => h name part (List.mem_cons_of_mem _ hmem)
    intro other part hmem hopen
    rcases List.mem_cons.mp hmem with heq | hmem
    · exact (Prod.mk.inj heq).2 ▸ hwalked
    · exact hothers other part hmem hopen

theorem WalksItems.anchored (hids : ∀ entry ∈ store.bundles, entry.1 ≠ "")
    (hown : context.Unrivalled)
    (hroots : ∀ source ∈ store.sources context,
      source.document.root.Lacks markerKeyword ∧ source.document.root.DistinctNames)
    (hleft : ∀ key, LeftPart logged key → context.GoesByName key) {named : List String}
    {frame : Frame} {index : Nat} {items items' : List Json} {log log' : WalkLog} :
    WalksItems ⟨store, .standard⟩ frame index items log items' log' →
      log'.unresolved ⊆ logged →
      (∀ item ∈ items, Moored context logged named frame item) →
        ∀ item ∈ items', item.restoreMarkers.Anchored store context named
  | .nil, _, _ => List.forall_mem_nil _
  | .item hitem hrest, hlogged, h => by
    have hwalked := hitem.anchored hids hown hroots hleft
      (List.Subset.trans hrest.unresolved_subset hlogged)
      ((h _ (List.mem_cons_self ..)).goTo _)
    have hothers := hrest.anchored hids hown hroots hleft hlogged
      fun item hmem => h item (List.mem_cons_of_mem _ hmem)
    exact List.forall_mem_cons.mpr ⟨hwalked, hothers⟩

end

end Walks

/-! ### Results -/

section Results

variable {store : Store} {context : store.Context} {node : Json} {path : String}
  {result : Dereferenced}

/-- References to whole documents need nothing to anchor them. -/
theorem anchored_of_whole (hids : ∀ entry ∈ store.bundles, entry.1 ≠ "")
    (hown : context.Unrivalled)
    (hmarker : node.Lacks markerKeyword) (hnames : node.DistinctNames)
    (hroots : ∀ source ∈ store.sources context,
      source.document.root.Lacks markerKeyword ∧ source.document.root.DistinctNames)
    (h : store.dereferenceAt .standard node context path = .ok result)
    (hwhole : ∀ broken ∈ result.unresolved, Reference.fragment broken.reference = "#") :
    result.schema.Anchored store context [] := by
  intro steps fields reference hopen hat hmade
  have hremains := remains_of_dereferenceAt hids hown hmarker hnames hroots h
    ⟨steps, fields, hopen, hat, hmade⟩
  obtain ⟨broken, hbroken, rfl⟩ := List.mem_map.mp hremains.mem
  exact Or.inl ⟨hwhole broken hbroken, hremains.reads⟩

/-- **All references in a result are anchored**, if those that are left and are not to a
whole document are to schemas that go by their own name, and no title stands beside a
reference. -/
theorem anchored_of_dereferenceAt (hids : ∀ entry ∈ store.bundles, entry.1 ≠ "")
    (hown : context.Unrivalled)
    (hmarker : node.Lacks markerKeyword) (hnames : node.DistinctNames)
    (hroots : ∀ source ∈ store.sources context,
      source.document.root.Lacks markerKeyword ∧ source.document.root.DistinctNames)
    (h : store.dereferenceAt .standard node context path = .ok result)
    (hleft : ∀ broken ∈ result.unresolved, Reference.fragment broken.reference = "#" ∨
      Site.Untitled store ⟨context, node⟩ ∧ context.GoesByName broken.reference) :
    result.schema.Anchored store context [] := by
  by_cases hwhole : ∀ broken ∈ result.unresolved, Reference.fragment broken.reference = "#"
  · exact anchored_of_whole hids hown hmarker hnames hroots h hwhole
  · obtain ⟨broken, hbroken, hpart⟩ : ∃ broken ∈ result.unresolved,
        Reference.fragment broken.reference ≠ "#" := by simpa using hwhole
    obtain ⟨htitles, -⟩ := (hleft broken hbroken).resolve_left hpart
    obtain ⟨walked, log, hwalks, rfl⟩ := dereferenceAt_eq_ok_iff.mp h
    refine hwalks.anchored hids hown hroots (fun key hkey => ?_) (List.Subset.refl _)
      ⟨.start path, hmarker, hnames, htitles, fun key hkey _ => ?_⟩
    · obtain ⟨other, hother, rfl⟩ := List.mem_map.mp hkey.1
      exact ((hleft other hother).resolve_left hkey.2).2
    · -- At the start nothing is being expanded, and nothing encloses the value.
      exact (hkey.elim id id : key ∈ [])

end Results

end RpcSchema
