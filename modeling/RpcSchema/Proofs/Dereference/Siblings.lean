import RpcSchema.Proofs.Dereference.Annotations
import RpcSchema.Proofs.Dereference.Properties
import RpcSchema.Proofs.Distinct
import RpcSchema.Proofs.Json.Equality

/-!
# What stands beside a reference

A reference that gives way to its target leaves what stands beside it behind.  The siblings are
dereferenced where they stand and laid over the walked target: a keyword of one side only stays,
and of a keyword of both sides the sibling wins.  But properties are put together, those of the
target first, and so are required names.

References that are left in place are still marked while this is done, and turning the markers
back must not undo it.  A marker is the last member of its object, so it comes last when properties
are put together, too, unless it is among those of the target.  Properties of a target that are
themselves a reference left in place are the exception: a property beside them that is called
like the keyword of references is lost.

## Main definitions

* `LaidOver`, `LaysOver` — what one keyword comes to, and all members, laid over those of a target.
* `MarkedLast` — members with a marker behind all others, if with any.
* `Store.dereferenceMembers` — the members of an object, each dereferenced where it stands.

## Main results

* `Walks.markedLast` — markers come last.
* `WalksMembers.laysOver` — turning markers back leaves siblings laid over a walked target.
* `dereferenceAt_siblings` — so they are in a result.
-/

namespace RpcSchema

/-! ### One map laid over another -/

/-- What a keyword of both sides comes to: properties are put together, those of the target first,
and so are required names.  Of any other keyword the sibling wins. -/
def LaidOver (keyword : String) (mine theirs laid : Json) : Prop :=
  match keyword, mine, theirs with
  | "properties", .object mine, .object theirs => ∃ fields, laid = .object fields ∧
      Fields.keys fields
        = Fields.keys theirs ++ (Fields.keys mine).filter (· ∉ Fields.keys theirs) ∧
      ∀ name, Fields.get? fields name = (Fields.get? mine name).or (Fields.get? theirs name)
  | "required", .array mine, .array theirs => ∃ added, laid = .array (theirs ++ added) ∧
      added.Sublist mine ∧ (added.filterMap Json.string?).Nodup ∧
      ∀ name, .string name ∈ added ↔ .string name ∈ mine ∧ .string name ∉ theirs
  | _, mine, _ => laid = mine

/-- The siblings of a reference, laid over its target. -/
structure LaysOver (siblings target merged : Fields Json) : Prop where
  nodup : (Fields.keys merged).Nodup
  mem_keys : ∀ name,
    name ∈ Fields.keys merged ↔ name ∈ Fields.keys target ∨ name ∈ Fields.keys siblings
  kept : ∀ name, name ∉ Fields.keys siblings → Fields.get? merged name = Fields.get? target name
  added : ∀ name mine, Fields.get? siblings name = some mine → Fields.get? target name = none →
    Fields.get? merged name = some mine
  laid : ∀ name mine theirs, Fields.get? siblings name = some mine →
    Fields.get? target name = some theirs →
      ∃ laid, Fields.get? merged name = some laid ∧ LaidOver name mine theirs laid

theorem laidOver_of_ne {keyword : String} {mine theirs : Json}
    (hproperties : keyword ≠ "properties") (hrequired : keyword ≠ "required") :
    LaidOver keyword mine theirs mine := by
  unfold LaidOver
  split
  · exact absurd rfl hproperties
  · exact absurd rfl hrequired
  · rfl

theorem overlayKeyword_of_ne {keyword : String} {mine theirs : Json}
    (hproperties : keyword ≠ "properties") (hrequired : keyword ≠ "required") :
    overlayKeyword keyword mine theirs = mine := by
  unfold overlayKeyword
  split
  · exact absurd rfl hproperties
  · exact absurd rfl hrequired
  · rfl

/-! ### Properties put together -/

theorem Json.restoreMarkersFields_foldl_set (mine theirs : Fields Json) :
    Json.restoreMarkersFields
        (mine.foldl (fun merged entry => Fields.set merged entry.1 entry.2) theirs)
      = (Json.restoreMarkersFields mine).foldl
          (fun merged entry => Fields.set merged entry.1 entry.2)
          (Json.restoreMarkersFields theirs) := by
  induction mine generalizing theirs with
  | nil => rfl
  | cons entry rest ih =>
    obtain ⟨name, value⟩ := entry
    rw [List.foldl_cons, ih, Json.restoreMarkersFields, List.foldl_cons]
    simp only [Json.restoreMarkersFields_eq]
    exact congrArg (List.foldl _ · _)
      (Fields.set_mapValues Json.restoreMarkers theirs name value).symm

/-! ### Markers behind all other members -/

/-- Members without a marker, or with one behind all others, none of which is a reference. -/
def MarkedLast (fields : Fields Json) : Prop :=
  markerKeyword ∉ Fields.keys fields ∨ ∃ others value, fields = others ++ [(markerKeyword, value)] ∧
    markerKeyword ∉ Fields.keys others ∧ "$ref" ∉ Fields.keys others

theorem restoreMarker_of_notMem {fields : Fields Json} (h : markerKeyword ∉ Fields.keys fields) :
    restoreMarker fields = fields := by
  rw [restoreMarker, Fields.get?_eq_none_iff.mpr h]

theorem restoreMarker_concat {others : Fields Json} (h : markerKeyword ∉ Fields.keys others)
    (value : Json) :
    restoreMarker (others ++ [(markerKeyword, value)]) = Fields.set others "$ref" value := by
  have hget : Fields.get? (others ++ [(markerKeyword, value)]) markerKeyword = some value := by
    rw [Fields.get?_append, Fields.get?_eq_none_iff.mpr h]
    rfl
  have hswap : Fields.swapErase (others ++ [(markerKeyword, value)]) markerKeyword = others := by
    simp [Fields.swapErase]
  rw [restoreMarker, hget]
  dsimp only
  rw [hswap]

/-- What stands beside a walked reference holds neither markers nor the reference. -/
structure IsBeside (beside : Fields Json) : Prop where
  nodup : (Fields.keys beside).Nodup
  marker : markerKeyword ∉ Fields.keys beside
  reference : "$ref" ∉ Fields.keys beside

namespace MarkedLast

variable {mine theirs beside fields : Fields Json}

theorem restoreMarkersFields (h : MarkedLast fields) :
    MarkedLast (Json.restoreMarkersFields fields) := by
  rcases h with h | ⟨others, value, rfl, hmarker, href⟩
  · exact .inl (by rwa [Json.keys_restoreMarkersFields])
  · refine .inr ⟨Json.restoreMarkersFields others, value.restoreMarkers, ?_, ?_, ?_⟩
    · simp [Json.restoreMarkersFields_eq]
    · rwa [Json.keys_restoreMarkersFields]
    · rwa [Json.keys_restoreMarkersFields]

/-- **The marker is turned back among the properties that are put together** as it is among those
beside the reference. -/
theorem restoreMarker_foldl_set (h : MarkedLast mine) (hmine : (Fields.keys mine).Nodup)
    (htheirs : markerKeyword ∉ Fields.keys theirs) :
    restoreMarker (mine.foldl (fun merged entry => Fields.set merged entry.1 entry.2) theirs)
      = (restoreMarker mine).foldl (fun merged entry => Fields.set merged entry.1 entry.2)
          theirs := by
  have hfree : ∀ {added : Fields Json}, (Fields.keys added).Nodup →
      markerKeyword ∉ Fields.keys added → markerKeyword ∉ Fields.keys
        (added.foldl (fun merged entry => Fields.set merged entry.1 entry.2) theirs) := by
    intro added hadded hmarker hmem
    rw [Fields.keys_foldl_set hadded, List.mem_append] at hmem
    rcases hmem with hmem | hmem
    · exact htheirs hmem
    · exact hmarker (List.mem_of_mem_filter hmem)
  rcases h with h | ⟨others, value, rfl, hmarker, href⟩
  · rw [restoreMarker_of_notMem h, restoreMarker_of_notMem (hfree hmine h)]
  · have hothers : (Fields.keys others).Nodup := by
      rw [Fields.keys_append] at hmine
      exact hmine.of_append_left
    rw [restoreMarker_concat hmarker, Fields.set_of_notMem href, List.foldl_append,
      List.foldl_append, List.foldl_cons, List.foldl_nil, List.foldl_cons, List.foldl_nil,
      Fields.set_of_notMem (hfree hothers hmarker), restoreMarker_concat (hfree hothers hmarker)]

/-- Members without markers and references laid over a target leave its marker last. -/
theorem overlay (h : MarkedLast fields) (hfields : (Fields.keys fields).Nodup)
    (hbeside : IsBeside beside) : MarkedLast (fields.foldl overlayMember beside) := by
  have hfree : ∀ {laid : Fields Json} {key : String}, (Fields.keys laid).Nodup →
      key ∉ Fields.keys beside → key ∉ Fields.keys laid →
        key ∉ Fields.keys (laid.foldl overlayMember beside) := by
    intro laid key hnodup hkey hlaid
    rw [← Fields.get?_eq_none_iff] at hkey hlaid ⊢
    rw [get?_overlay hnodup, hkey, hlaid]
  rcases h with h | ⟨others, value, rfl, hothers, hlast⟩
  · exact .inl (hfree hfields hbeside.marker h)
  · have hnodup : (Fields.keys others).Nodup := by
      rw [Fields.keys_append] at hfields
      exact hfields.of_append_left
    have hnew := hfree hnodup hbeside.marker hothers
    refine .inr ⟨others.foldl overlayMember beside, value, ?_, hnew,
      hfree hnodup hbeside.reference hlast⟩
    rw [List.foldl_append, List.foldl_cons, List.foldl_nil, overlayMember,
      Fields.get?_eq_none_iff.mpr hnew]

end MarkedLast

/-! ### Required names put together -/

private theorem mem_map_restoreMarkers_iff {items : List Json} {name : String} :
    .string name ∈ items.map Json.restoreMarkers ↔ .string name ∈ items := by
  rw [List.mem_map]
  constructor
  · rintro ⟨item, hmem, heq⟩
    cases item <;> cases heq
    exact hmem
  · exact fun hmem => ⟨_, hmem, rfl⟩

/-- A text equals nothing but itself. -/
private theorem contains_string_iff {items : List Json} {name : String} :
    items.contains (.string name) = true ↔ .string name ∈ items := by
  rw [List.contains_iff_exists_mem_beq]
  constructor
  · rintro ⟨item, hmem, hbeq⟩
    cases Json.beq_iff_sameParts.mp hbeq
    exact hmem
  · exact fun hmem => ⟨_, hmem, Json.beq_iff_sameParts.mpr (.string name)⟩

private theorem laidOver_required (mine theirs : List Json) :
    LaidOver "required" (.array (mine.map Json.restoreMarkers))
      (.array (theirs.map Json.restoreMarkers))
      (.array ((unionOf theirs mine).map Json.restoreMarkers)) := by
  obtain ⟨added, heq, hsub, hdistinct, hnew, hall⟩ := unionOf_eq_append_added theirs mine
  refine ⟨added.map Json.restoreMarkers, by rw [heq, List.map_append], hsub.map _, ?_, ?_⟩
  · have hnames : (added.map Json.restoreMarkers).filterMap Json.string?
        = added.filterMap Json.string? := by
      rw [List.filterMap_map]
      exact List.filterMap_congr fun item _ => Json.string?_restoreMarkers item
    rw [hnames, List.Nodup, List.pairwise_filterMap]
    refine hdistinct.imp fun {one other} hne name hname name' hname' heq => ?_
    subst heq
    cases one <;> cases hname
    cases other <;> cases hname'
    exact absurd (Json.beq_iff_sameParts.mpr (.string name)) (by rw [hne]; decide)
  · intro name
    rw [mem_map_restoreMarkers_iff, mem_map_restoreMarkers_iff, mem_map_restoreMarkers_iff]
    constructor
    · intro hmem
      refine ⟨hsub.mem hmem, fun hold => ?_⟩
      have := hnew _ hmem
      rw [contains_string_iff.mpr hold] at this
      cases this
    · rintro ⟨hmem, hold⟩
      have := hall _ hmem (Json.beq_iff_sameParts.mpr (.string name))
      exact (List.mem_append.mp (contains_string_iff.mp this)).resolve_left hold

/-! ### Siblings laid over a target -/

/-- **Turning markers back leaves a keyword of both sides put together**, unless the properties of
the target are a reference that is left in place. -/
theorem laidOver_restoreMarkers {keyword : String} {mine theirs : Json}
    (hmine : ∀ fields, keyword = "properties" → mine = .object fields →
      MarkedLast fields ∧ (Fields.keys fields).Nodup)
    (htheirs : ∀ fields, keyword = "properties" → theirs = .object fields →
      markerKeyword ∉ Fields.keys fields) :
    LaidOver keyword mine.restoreMarkers theirs.restoreMarkers
      (overlayKeyword keyword mine theirs).restoreMarkers := by
  -- Only properties and required names are put together; other keywords hide those of the target.
  by_cases hproperties : keyword = "properties"
  · subst hproperties
    cases mine with
    | object mine =>
      cases theirs with
      | object theirs =>
        obtain ⟨hlast, hnames⟩ := hmine mine rfl rfl
        have hmarker := htheirs theirs rfl rfl
        have hnames' : (Fields.keys (Json.restoreMarkersFields mine)).Nodup := by
          rwa [Json.keys_restoreMarkersFields]
        have hmarker' : markerKeyword ∉ Fields.keys (Json.restoreMarkersFields theirs) := by
          rwa [Json.keys_restoreMarkersFields]
        have hrestored := nodup_keys_restoreMarker hnames'
        refine ⟨_, rfl, ?_, ?_⟩ <;>
          rw [Json.restoreMarkersFields_foldl_set,
            hlast.restoreMarkersFields.restoreMarker_foldl_set hnames' hmarker',
            restoreMarker_of_notMem hmarker']
        · exact Fields.keys_foldl_set hrestored
        · exact Fields.get?_foldl_set hrestored
      | _ => rfl
    | _ => rfl
  · by_cases hrequired : keyword = "required"
    · subst hrequired
      cases mine with
      | array mine =>
        cases theirs with
        | array theirs =>
          simp only [overlayKeyword, Json.restoreMarkers, Json.restoreMarkersItems_eq]
          exact laidOver_required mine theirs
        | _ => rfl
      | _ => rfl
    · rw [overlayKeyword_of_ne hproperties hrequired]
      exact laidOver_of_ne hproperties hrequired

/-- The members of an object with all markers in it turned back. -/
def restoredMembers (fields : Fields Json) : Fields Json :=
  restoreMarker (Json.restoreMarkersFields fields)

theorem nodup_keys_restoredMembers {fields : Fields Json} (h : (Fields.keys fields).Nodup) :
    (Fields.keys (restoredMembers fields)).Nodup :=
  nodup_keys_restoreMarker (by rwa [Json.keys_restoreMarkersFields])

theorem get?_restoredMembers {fields : Fields Json} (h : (Fields.keys fields).Nodup)
    (name : String) : Fields.get? (restoredMembers fields) name =
      if name = "$ref" then ((Fields.get? fields markerKeyword).map Json.restoreMarkers).or
        ((Fields.get? fields "$ref").map Json.restoreMarkers)
      else if name = markerKeyword then none
      else (Fields.get? fields name).map Json.restoreMarkers := by
  rw [restoredMembers, get?_restoreMarker (by rwa [Json.keys_restoreMarkersFields])]
  simp only [Json.get?_restoreMarkersFields]

/-- Under other names than those of references the parts are found, with markers turned back. -/
theorem get?_restoredMembers_of_ne {fields : Fields Json} (h : (Fields.keys fields).Nodup)
    {name : String} (href : name ≠ "$ref") (hmarker : name ≠ markerKeyword) :
    Fields.get? (restoredMembers fields) name
      = (Fields.get? fields name).map Json.restoreMarkers := by
  rw [get?_restoredMembers h, if_neg href, if_neg hmarker]

section Overlay

variable {beside theirs : Fields Json} (hbeside : IsBeside beside)
  (htheirs : (Fields.keys theirs).Nodup)
include hbeside

/-- The names beside a reference are not those of references. -/
theorem IsBeside.get?_restoredMembers {name : String} (hname : name ∈ Fields.keys beside)
    {members : Fields Json} (hmembers : (Fields.keys members).Nodup) :
    Fields.get? (restoredMembers members) name
      = (Fields.get? members name).map Json.restoreMarkers :=
  get?_restoredMembers_of_ne hmembers (fun heq => hbeside.reference (heq ▸ hname))
    fun heq => hbeside.marker (heq ▸ hname)

include htheirs

/-- Where nothing stands beside the reference, the target's keyword stays. -/
theorem IsBeside.get?_overlay_of_notMem {name : String} (hname : name ∉ Fields.keys beside) :
    Fields.get? (restoredMembers (theirs.foldl overlayMember beside)) name
      = Fields.get? (restoredMembers theirs) name := by
  have hstays : ∀ {other}, other ∉ Fields.keys beside →
      Fields.get? (theirs.foldl overlayMember beside) other = Fields.get? theirs other := by
    intro other hother
    rw [get?_overlay htheirs, Fields.get?_eq_none_iff.mpr hother]
  rw [RpcSchema.get?_restoredMembers (nodup_keys_overlay hbeside.nodup),
    RpcSchema.get?_restoredMembers htheirs, hstays hbeside.reference, hstays hbeside.marker,
    hstays hname]

/-- Elsewhere the sibling is laid over the target's keyword, if the target has one. -/
theorem IsBeside.get?_overlay_of_get? {name : String} {mine : Json}
    (hname : Fields.get? beside name = some mine) :
    Fields.get? (restoredMembers (theirs.foldl overlayMember beside)) name =
      some (match Fields.get? theirs name with
        | some walked => (overlayKeyword name mine walked).restoreMarkers
        | none => mine.restoreMarkers) := by
  rw [hbeside.get?_restoredMembers (Fields.mem_keys_of_mem (Fields.mem_of_get? hname))
    (nodup_keys_overlay hbeside.nodup), get?_overlay htheirs, hname]
  cases Fields.get? theirs name <;> rfl

/-- **Turning markers back leaves siblings laid over a target**, unless the properties of the target
are a reference that is left in place. -/
theorem laysOver_overlay
    (hmine : ∀ properties, Fields.get? beside "properties" = some (.object properties) →
      MarkedLast properties ∧ (Fields.keys properties).Nodup)
    (hproperties : "properties" ∈ Fields.keys beside → ∀ properties,
      Fields.get? theirs "properties" = some (.object properties) →
        markerKeyword ∉ Fields.keys properties) :
    LaysOver (Json.restoreMarkersFields beside) (restoredMembers theirs)
      (restoredMembers (theirs.foldl overlayMember beside)) := by
  have hfound : ∀ {name mine}, Fields.get? (Json.restoreMarkersFields beside) name = some mine →
      ∃ walked, Fields.get? beside name = some walked ∧ walked.restoreMarkers = mine := by
    intro name mine hname
    rw [Json.get?_restoreMarkersFields] at hname
    exact Option.map_eq_some_iff.mp hname
  have hkeys := Json.keys_restoreMarkersFields beside
  refine ⟨nodup_keys_restoredMembers (nodup_keys_overlay hbeside.nodup), fun name => ?_,
    fun name hname => hbeside.get?_overlay_of_notMem htheirs (hkeys ▸ hname),
    fun name mine hname hnone => ?_, fun name mine target hname htarget => ?_⟩
  · rw [hkeys]
    by_cases hname : name ∈ Fields.keys beside
    · obtain ⟨mine, hmine⟩ := Option.isSome_iff_exists.mp (Fields.contains_iff.mpr hname)
      have hget := hbeside.get?_overlay_of_get? htheirs hmine
      exact ⟨fun _ => .inr hname, fun _ => Fields.mem_keys_of_mem (Fields.mem_of_get? hget)⟩
    · rw [or_iff_left hname, ← Fields.contains_iff, ← Fields.contains_iff, Fields.contains,
        Fields.contains, hbeside.get?_overlay_of_notMem htheirs hname]
  · obtain ⟨walked, hwalked, rfl⟩ := hfound hname
    have hmem := Fields.mem_keys_of_mem (Fields.mem_of_get? hwalked)
    rw [hbeside.get?_restoredMembers hmem htheirs, Option.map_eq_none_iff] at hnone
    rw [hbeside.get?_overlay_of_get? htheirs hwalked, hnone]
  · obtain ⟨walked, hwalked, rfl⟩ := hfound hname
    have hmem := Fields.mem_keys_of_mem (Fields.mem_of_get? hwalked)
    rw [hbeside.get?_restoredMembers hmem htheirs] at htarget
    obtain ⟨target, hget, rfl⟩ := Option.map_eq_some_iff.mp htarget
    refine ⟨(overlayKeyword name walked target).restoreMarkers, ?_, laidOver_restoreMarkers
      (fun properties heq hobject => ?_) fun properties heq hobject => ?_⟩
    · rw [hbeside.get?_overlay_of_get? htheirs hwalked, hget]
    · exact hmine properties (hobject ▸ heq ▸ hwalked)
    · exact hproperties (heq ▸ hmem) properties (hobject ▸ heq ▸ hget)

end Overlay

/-! ### Walks -/

variable {store : Store} {context : store.Context}

theorem WalksMembers.isBeside {setting : WalkSetting} {frame : Frame} {fields fields' : Fields Json}
    {log log' : WalkLog} (h : WalksMembers setting frame fields log fields' log')
    (hmarker : (Json.object fields).Lacks markerKeyword)
    (hnames : (Json.object fields).DistinctNames) : IsBeside (Fields.swapErase fields' "$ref") := by
  have hkeys : (Fields.keys fields').Nodup := h.keys_eq ▸ (Json.everyObject_object_iff.mp hnames).1
  have hfree : markerKeyword ∉ Fields.keys fields' :=
    h.keys_eq ▸ (Json.everyObject_object_iff.mp hmarker).1
  refine ⟨Fields.nodup_keys_swapErase hkeys _, ?_, ?_⟩ <;> rw [← Fields.get?_eq_none_iff]
  · rw [Fields.get?_swapErase_of_ne hkeys markerKeyword_ne, Fields.get?_eq_none_iff.mpr hfree]
  · exact Fields.get?_swapErase_self hkeys _

/-- **Markers come last** in what is walked, where no member is called like them. -/
theorem Walks.markedLast
    (hroots : ∀ source ∈ store.sources context,
      source.document.root.Lacks markerKeyword ∧ source.document.root.DistinctNames)
    {frame : Frame} {value walked : Json} {log log' : WalkLog} :
    Walks ⟨store, .standard⟩ frame value log walked log' → frame.Stands context →
      value.Lacks markerKeyword → value.DistinctNames →
        ∀ fields, walked = .object fields → MarkedLast fields
  | .scalar hobject _, _, _, _ => fun fields heq => by
    rw [heq] at hobject
    cases hobject
  | .array _, _, _, _ => fun _ heq => by cases heq
  | .object _ hmembers, _, hmarker, _ => fun fields heq => by
    obtain rfl := Json.object.inj heq
    exact .inl (hmembers.keys_eq ▸ (Json.everyObject_object_iff.mp hmarker).1)
  | .keep _ htreat _, _, _, _ => absurd htreat Walk.treatment_standard_ne_keep
  | .copied _ htreat _ _, _, _, _ => absurd htreat Walk.treatment_standard_ne_copy
  | .copy _ htreat _ _ _ _, _, _, _ => absurd htreat Walk.treatment_standard_ne_copy
  | .leave _ _ hmembers, _, hmarker, hnames => fun fields heq => by
    obtain rfl := Json.object.inj heq
    -- The marker is set where there was none, which appends it.
    have hbeside := hmembers.isBeside hmarker hnames
    exact .inr ⟨_, _, Fields.set_of_notMem hbeside.marker _, hbeside.marker, hbeside.reference⟩
  | .inline href _ hmembers htarget, hstands, hmarker, hnames => fun fields heq => by
    have hbeside := hmembers.isBeside hmarker hnames
    have hroots' := fun source hsource => (hroots source hsource).2
    have hlacks := Store.everyObject_of_locate? href.found hstands.source.mem_sources
      fun source hsource => (hroots source hsource).1
    have hdistinct := Store.everyObject_of_locate? href.found hstands.source.mem_sources hroots'
    have hlast := htarget.markedLast hroots (hstands.expand href.found) hlacks hdistinct
    have hwalked := htarget.distinctNames hroots' (hstands.expand href.found) hdistinct
    unfold overlayTarget at heq
    split at heq
    · next members =>
      obtain rfl := Json.object.inj heq
      exact (hlast members rfl).overlay (Json.everyObject_object_iff.mp hwalked).1 hbeside
    · next hother =>
      split at heq
      · exact absurd heq (hother fields)
      · obtain rfl := Json.object.inj heq
        exact .inl hbeside.marker

/-- **Siblings are laid over a walked target**, wherever the reference is walked, unless the
properties of the target are a reference that is left in place. -/
theorem WalksMembers.laysOver
    (hroots : ∀ source ∈ store.sources context,
      source.document.root.Lacks markerKeyword ∧ source.document.root.DistinctNames)
    {frame : Frame} {fields fields' theirs : Fields Json} {log log' : WalkLog}
    (h : WalksMembers ⟨store, .standard⟩ frame fields log fields' log')
    (hstands : frame.Stands context)
    (hmarker : (Json.object fields).Lacks markerKeyword)
    (hnames : (Json.object fields).DistinctNames) (htheirs : (Json.object theirs).DistinctNames)
    (hproperties : "properties" ∈ Fields.keys fields → ∀ properties,
      Fields.get? theirs "properties" = some (.object properties) →
        markerKeyword ∉ Fields.keys properties) :
    LaysOver (Fields.swapErase (Json.restoreMarkersFields fields') "$ref") (restoredMembers theirs)
      (restoredMembers (theirs.foldl overlayMember (Fields.swapErase fields' "$ref"))) := by
  obtain ⟨hkeys, hdistinct⟩ := Json.everyObject_object_iff.mp hnames
  have hsiblings : Fields.swapErase (Json.restoreMarkersFields fields') "$ref"
      = Json.restoreMarkersFields (Fields.swapErase fields' "$ref") := by
    rw [Json.restoreMarkersFields_eq, Json.restoreMarkersFields_eq]
    exact Fields.swapErase_mapValues _ _ _
  rw [hsiblings]
  refine laysOver_overlay (h.isBeside hmarker hnames) (Json.everyObject_object_iff.mp htheirs).1
    (fun properties hget => ?_) fun hmem => hproperties ?_
  · have hne : "properties" ≠ "$ref" := by decide
    rw [Fields.get?_swapErase_of_ne (h.keys_eq ▸ hkeys) hne] at hget
    obtain ⟨part, _, _, hpart, hwalked, -⟩ := h.of_get? (by decide) hget
    have hmem := Fields.mem_of_get? hpart
    have hlacks := (Json.everyObject_object_iff.mp hmarker).2 _ _ hmem
    have hroots' := fun source hsource => (hroots source hsource).2
    exact ⟨hwalked.markedLast hroots (hstands.goTo _) hlacks (hdistinct _ _ hmem) _ rfl,
      (Json.everyObject_object_iff.mp
        (hwalked.distinctNames hroots' (hstands.goTo _) (hdistinct _ _ hmem))).1⟩
  · obtain ⟨part, hpart⟩ := Fields.mem_keys.mp hmem
    exact h.keys_eq ▸ Fields.mem_keys_of_mem (Fields.mem_of_mem_swapErase hpart)

/-! ### Dereferencing -/

/-- A member, dereferenced where it stands, unless it holds data. -/
def Store.dereferenceMember (store : Store) (context : store.Context) (path name : String)
    (part : Json) : Except Failure Json :=
  if isOpaqueKeyword name then .ok part
  else (store.dereferenceAt .standard part context (Pointer.child path name)).map
    Dereferenced.schema

/-- The members of an object that stands at a path, each dereferenced where it stands. -/
def Store.dereferenceMembers (store : Store) (context : store.Context) (path : String)
    (fields : Fields Json) : Except Failure (Fields Json) :=
  fields.mapM fun entry =>
    (store.dereferenceMember context path entry.1 entry.2).map fun part => (entry.1, part)

theorem Store.dereferenceMember_of_data {path name : String} {part : Json}
    (hname : isOpaqueKeyword name = true) :
    store.dereferenceMember context path name part = .ok part := by
  rw [dereferenceMember, if_pos hname]

/-- A member is dereferenced just as it is walked among others. -/
theorem Store.dereferenceMember_eq_ok_iff {path name : String} {part mine : Json}
    (hname : isOpaqueKeyword name = false) (log : WalkLog) :
    store.dereferenceMember context path name part = .ok mine ↔
      ∃ walked log', Walks ⟨store, .standard⟩ ((Frame.start context path).member name) part log
        walked log' ∧ mine = walked.restoreMarkers := by
  rw [dereferenceMember, if_neg (by rw [hname]; decide), map_eq_ok_iff]
  constructor
  · rintro ⟨result, hresult, rfl⟩
    obtain ⟨walked, _, hwalks, rfl⟩ := dereferenceAt_eq_ok_iff.mp hresult
    obtain ⟨log', hwalks'⟩ := hwalks.goTo (Pointer.child path name) log
    exact ⟨walked, log', hwalks', rfl⟩
  · rintro ⟨walked, _, hwalks, rfl⟩
    obtain ⟨log', hwalks'⟩ := hwalks.goTo (Pointer.child path name) .empty
    exact ⟨_, dereferenceAt_eq_ok_iff.mpr ⟨walked, log', hwalks', rfl⟩, rfl⟩

theorem Store.dereferenceMembers_cons_eq_ok_iff {path name : String} {part : Json}
    {rest members : Fields Json} :
    store.dereferenceMembers context path ((name, part) :: rest) = .ok members ↔
      ∃ mine others, store.dereferenceMember context path name part = .ok mine ∧
        store.dereferenceMembers context path rest = .ok others ∧
          members = (name, mine) :: others := by
  simp only [dereferenceMembers, List.mapM_cons, bind_eq_ok_iff, map_eq_ok_iff]
  constructor
  · rintro ⟨_, ⟨mine, hmine, rfl⟩, others, hothers, heq⟩
    cases heq
    exact ⟨mine, others, hmine, hothers, rfl⟩
  · rintro ⟨mine, others, hmine, hothers, rfl⟩
    exact ⟨_, ⟨mine, hmine, rfl⟩, others, hothers, rfl⟩

/-- Members are dereferenced one by one just as they are walked one after the other. -/
theorem Store.dereferenceMembers_eq_ok_iff {path : String} {fields members : Fields Json}
    (hmarker : ∀ name part, (name, part) ∈ fields → part.Lacks markerKeyword) (log : WalkLog) :
    store.dereferenceMembers context path fields = .ok members ↔
      ∃ fields' log', WalksMembers ⟨store, .standard⟩ (.start context path) fields log fields'
        log' ∧ members = Json.restoreMarkersFields fields' := by
  -- A walk starts from what is logged before it, so the log is not fixed in the induction.
  induction fields generalizing members log with
  | nil =>
    constructor
    · intro h
      cases h
      exact ⟨[], log, .nil, rfl⟩
    · rintro ⟨_, _, hmembers, rfl⟩
      cases hmembers
      rfl
  | cons entry rest ih =>
    obtain ⟨name, part⟩ := entry
    have hpart := hmarker name part List.mem_cons_self
    have hrest : ∀ {members : Fields Json} (log : WalkLog),
        store.dereferenceMembers context path rest = .ok members ↔
          ∃ rest' log', WalksMembers ⟨store, .standard⟩ (.start context path) rest log rest' log' ∧
            members = Json.restoreMarkersFields rest' :=
      ih fun other value hmem => hmarker other value (List.mem_cons_of_mem _ hmem)
    rw [dereferenceMembers_cons_eq_ok_iff]
    cases hname : isOpaqueKeyword name with
    | true =>
      rw [dereferenceMember_of_data hname]
      constructor
      · rintro ⟨mine, others, hmine, hothers, rfl⟩
        obtain rfl := Except.ok.inj hmine
        obtain ⟨rest', log', hmembers, rfl⟩ := (hrest log).mp hothers
        refine ⟨_, log', .data hname hmembers, ?_⟩
        rw [Json.restoreMarkersFields, Json.restoreMarkers_of_lacks hpart]
      · rintro ⟨_, log', hmembers, rfl⟩
        cases hmembers with
        | member hopen => rw [hname] at hopen; cases hopen
        | data _ hmembers =>
          refine ⟨part, _, rfl, (hrest log).mpr ⟨_, log', hmembers, rfl⟩, ?_⟩
          rw [Json.restoreMarkersFields, Json.restoreMarkers_of_lacks hpart]
    | false =>
      constructor
      · rintro ⟨mine, others, hmine, hothers, rfl⟩
        obtain ⟨walked, between, hwalks, rfl⟩ := (dereferenceMember_eq_ok_iff hname log).mp hmine
        obtain ⟨rest', log', hmembers, rfl⟩ := (hrest between).mp hothers
        exact ⟨_, log', .member hname hwalks hmembers, rfl⟩
      · rintro ⟨_, log', hmembers, rfl⟩
        cases hmembers with
        | data hopaque => rw [hname] at hopaque; cases hopaque
        | member _ hwalks hmembers =>
          exact ⟨_, _, (dereferenceMember_eq_ok_iff hname log).mpr ⟨_, _, hwalks, rfl⟩,
            (hrest _).mpr ⟨_, log', hmembers, rfl⟩, rfl⟩

/-- **Siblings are laid over the target of a reference** that gives way to it, unless the properties
of the target are a reference that is left in place.  There is a result just when all siblings have
one. -/
theorem dereferenceAt_siblings {path reference : String} {fields theirs : Fields Json}
    {target : Target} {before after : WalkLog}
    (hroots : ∀ source ∈ store.sources context,
      source.document.root.Lacks markerKeyword ∧ source.document.root.DistinctNames)
    (hmarker : (Json.object fields).Lacks markerKeyword)
    (hnames : (Json.object fields).DistinctNames)
    (href : RefersTo store context fields reference target)
    (hpart : Reference.fragment reference ≠ "#")
    (htarget : Walks ⟨store, .standard⟩ ((Frame.start context path).expand target.source
      (target.canonical context.origin reference)) target.node before (.object theirs) after)
    (hproperties : "properties" ∈ Fields.keys fields → ∀ properties,
      Fields.get? theirs "properties" = some (.object properties) →
        markerKeyword ∉ Fields.keys properties) :
    (∀ failure, store.dereferenceMembers context path fields = .error failure →
      ∃ failure, store.dereferenceAt .standard (.object fields) context path = .error failure) ∧
    ∀ members, store.dereferenceMembers context path fields = .ok members →
      ∃ result merged, store.dereferenceAt .standard (.object fields) context path = .ok result ∧
        result.schema = .object merged ∧
          LaysOver (Fields.swapErase members "$ref") (restoredMembers theirs) merged := by
  have hinside := Frame.inside_of_some href.made (Frame.start context path)
  have hmarkers := (Json.everyObject_object_iff.mp hmarker).2
  -- The siblings are walked before their reference gives way: without theirs there is no result.
  constructor
  · intro failure hfailure
    cases hresult : store.dereferenceAt .standard (.object fields) context path with
    | error failure' => exact ⟨failure', rfl⟩
    | ok result =>
      obtain ⟨_, _, hwalks, -⟩ := dereferenceAt_eq_ok_iff.mp hresult
      obtain ⟨fields', between, hmembers⟩ := hwalks.members_walked
      have hok := (Store.dereferenceMembers_eq_ok_iff hmarkers .empty).mpr
        ⟨fields', between, hinside ▸ hmembers, rfl⟩
      rw [hfailure] at hok
      cases hok
  · intro members hok
    obtain ⟨fields', between, hmembers, rfl⟩ :=
      (Store.dereferenceMembers_eq_ok_iff hmarkers .empty).mp hok
    have htreat : Walk.treatment .standard (Frame.start context path) reference target
        = .inline := by
      rw [Walk.treatment_standard_eq, if_neg]
      simp [Frame.start, hpart]
    obtain ⟨last, htarget'⟩ := htarget.goTo path between
    have hwalks := Walks.inline href htreat (hinside.symm ▸ hmembers) htarget'
    have hstands : (Frame.start context path).Stands context := .start path
    have hroots' := fun source hsource => (hroots source hsource).2
    have hnode := Store.everyObject_of_locate? href.found hstands.source.mem_sources hroots'
    exact ⟨_, _, dereferenceAt_eq_ok_iff.mpr ⟨_, last, hwalks, rfl⟩, rfl,
      hmembers.laysOver hroots hstands hmarker hnames
        (htarget.distinctNames hroots' (hstands.expand href.found) hnode) hproperties⟩

/-- The members of an object schema. -/
def baseFields : Fields Json :=
  [("properties", .object [("a", .object [("type", .string "integer")])]),
    ("required", .array [.string "a"])]

/-- A document with that schema and one of texts. -/
def baseDocument : Document := ⟨none, "Module", .object [("components", .object
  [("schemas", .object [("Id", .object [("type", .string "string")]),
    ("Base", .object baseFields)])])]⟩

/-- A reference to the object schema, with a property and required names beside it. -/
def extendingFields : Fields Json :=
  [("$ref", .string "#/components/schemas/Base"),
    ("properties", .object [("id", .object [("$ref", .string "#/components/schemas/Id")])]),
    ("required", .array [.string "id", .string "a"])]

/-- The target of the reference. -/
def baseTarget : Target := ⟨baseDocument.asContext,
  [.member "components", .member "schemas", .member "Base"], .object baseFields⟩

/-- The property is put behind those of the target, and so is the name that is new. -/
theorem dereferenceAt_siblings_extendingFields :
    (∀ source ∈ Store.empty.sources baseDocument.asContext,
      source.document.root.Lacks markerKeyword ∧ source.document.root.DistinctNames) ∧
    (Json.object extendingFields).Lacks markerKeyword ∧
    (Json.object extendingFields).DistinctNames ∧
    RefersTo Store.empty baseDocument.asContext extendingFields "#/components/schemas/Base"
      baseTarget ∧
    Reference.fragment "#/components/schemas/Base" ≠ "#" ∧
    Walks ⟨.empty, .standard⟩ ((Frame.start baseDocument.asContext "#").expand baseTarget.source
      (baseTarget.canonical .context "#/components/schemas/Base")) baseTarget.node .empty
      (.object baseFields) .empty ∧
    (∀ properties, Fields.get? baseFields "properties" = some (.object properties) →
      markerKeyword ∉ Fields.keys properties) ∧
    ∃ members result merged,
      Store.empty.dereferenceMembers baseDocument "#" extendingFields = .ok members ∧
      Fields.swapErase members "$ref" = [("required", .array [.string "id", .string "a"]),
        ("properties", .object [("id", .object [("type", .string "string")])])] ∧
      Store.empty.dereferenceAt .standard (.object extendingFields) baseDocument "#"
        = .ok result ∧
      result.schema = .object merged ∧
      LaysOver (Fields.swapErase members "$ref") (restoredMembers baseFields) merged := by
  have hroots : ∀ source ∈ Store.empty.sources baseDocument.asContext,
      source.document.root.Lacks markerKeyword ∧ source.document.root.DistinctNames := by decide
  have hmarker : (Json.object extendingFields).Lacks markerKeyword := by decide
  have hnames : (Json.object extendingFields).DistinctNames := by decide
  have href : RefersTo Store.empty baseDocument.asContext extendingFields
      "#/components/schemas/Base" baseTarget := ⟨by decide, by decide +kernel⟩
  have hpart : Reference.fragment "#/components/schemas/Base" ≠ "#" := by decide +kernel
  have htarget : Walks ⟨.empty, .standard⟩ ((Frame.start baseDocument.asContext "#").expand
      baseTarget.source (baseTarget.canonical .context "#/components/schemas/Base"))
      baseTarget.node .empty (.object baseFields) .empty := .of_references_eq_nil _ _ (by decide)
  have hproperties : ∀ properties,
      Fields.get? baseFields "properties" = some (.object properties) →
        markerKeyword ∉ Fields.keys properties := by
    intro properties hget
    obtain rfl := Json.object.inj (Option.some.inj hget)
    decide
  have hmembers : Store.empty.dereferenceMembers baseDocument "#" extendingFields
      = .ok [("$ref", .string "#/components/schemas/Base"),
        ("properties", .object [("id", .object [("type", .string "string")])]),
        ("required", .array [.string "id", .string "a"])] :=
    toOption_eq_some_iff.mp (by decide +kernel)
  obtain ⟨result, merged, hresult, hmerged, hlays⟩ := (dereferenceAt_siblings hroots hmarker hnames
    href hpart htarget fun _ => hproperties).2 _ hmembers
  exact ⟨hroots, hmarker, hnames, href, hpart, htarget, hproperties, _, result, merged, hmembers,
    by decide, hresult, hmerged, hlays⟩

/-- Properties that are a reference to the whole document. -/
def shapeFields : Fields Json := [("properties", .object [("$ref", .string "#")])]

/-- A document with a schema of such properties. -/
def shapeDocument : Document := ⟨none, "Shapes", .object [("shape", .object shapeFields)]⟩

/-- A reference to the schema, and a property beside it that goes by the keyword of references. -/
def shapedFields : Fields Json := [("$ref", .string "#/shape"),
  ("properties", .object [("$ref", .object [("type", .string "string")])])]

/-- The target of the reference. -/
def shapeTarget : Target := ⟨shapeDocument.asContext, [.member "shape"], .object shapeFields⟩

/-- The property beside the reference is lost: the reference that is left in place takes its name
when its marker is turned back. -/
theorem not_laysOver_shapedFields :
    let walked := [("properties", .object [(markerKeyword, .string "#")])]
    let members := [("$ref", .string "#/shape"),
      ("properties", .object [("$ref", .object [("type", .string "string")])])]
    let merged := [("properties", .object [("$ref", .string "#")])]
    RefersTo Store.empty shapeDocument.asContext shapedFields "#/shape" shapeTarget ∧
      Reference.fragment "#/shape" ≠ "#" ∧
      (∃ after, Walks ⟨.empty, .standard⟩ ((Frame.start shapeDocument.asContext "#").expand
        shapeTarget.source (shapeTarget.canonical .context "#/shape")) shapeTarget.node .empty
        (.object walked) after) ∧
      Store.empty.dereferenceMembers shapeDocument "#" shapedFields = .ok members ∧
      Store.empty.dereferenceAt .standard (.object shapedFields) shapeDocument "#"
        = .ok ⟨.object merged, [⟨"#/properties", "#"⟩], []⟩ ∧
      ¬ LaysOver (Fields.swapErase members "$ref") (restoredMembers walked) merged := by
  intro walked members merged
  let frame := (Frame.start shapeDocument.asContext "#").expand shapeTarget.source
    (shapeTarget.canonical .context "#/shape")
  let whole : Target := ⟨shapeDocument.asContext, [], shapeDocument.root⟩
  have hleft : Walk.treatment .standard (frame.member "properties") "#" whole = .leave := by
    decide +kernel
  have href : RefersTo Store.empty shapeDocument.asContext [("$ref", .string "#")] "#" whole :=
    ⟨by decide, by decide +kernel⟩
  have hkey : whole.canonical (frame.member "properties").home "#" = "#" := by decide +kernel
  have hmap : Walks ⟨.empty, .standard⟩ (frame.member "properties")
      (.object [("$ref", .string "#")]) .empty _ _ := .leave href hleft (.data rfl .nil)
  rw [hkey] at hmap
  have hwalks : Walks ⟨.empty, .standard⟩ frame (.object shapeFields) .empty (.object walked) _ :=
    .object rfl (.member rfl hmap .nil)
  refine ⟨⟨by decide, by decide +kernel⟩, by decide +kernel, ⟨_, hwalks⟩,
    toOption_eq_some_iff.mp (by decide +kernel), eq_ok_of_toOption (by decide +kernel), fun h => ?_⟩
  obtain ⟨laid, hget, fields, rfl, -, hfields⟩ := h.laid "properties" _ _ rfl rfl
  have hlost := hfields "$ref"
  obtain rfl := Json.object.inj (Option.some.inj hget)
  exact absurd hlost (by decide)

end RpcSchema
