import RpcSchema.Proofs.Dereference.Leftovers

/-!
# What anchors references

A reference is left in place because its target was being expanded, or because an enclosing
object was taken for the target.  Of what was being expanded nothing remains in the result
but the title of the target, on the object that the target was copied to.  So a reference in
the result is *anchored* when it can be told from the result alone that it is circular: when
it is to a whole document, or to the named schema of the document worked on that an
enclosing object is taken for.

Anchors hold when keywords are laid over a target, unless a title is among them.

## Main definitions

* `Json.Anchored` — all references are anchored.
* `Source.enclosing` — what a value and what encloses it stand for.
* `Bare` — members without a reference, a marker and a title.

## Main results

* `Json.anchored_of_children` — anchors of a value, from those of its parts.
* `Json.anchored_overlayTarget` — anchors hold when bare keywords are laid over a target.
-/

namespace RpcSchema

/-- A reference is to a whole document, and is its own canonical form. -/
def Store.ReadsWhole (store : Store) (context : Source) (reference : String) : Prop :=
  Reference.fragment reference = "#" ∧ store.ReadsBack context reference

/-- Every reference that open steps lead to is to a whole document, to one of the schemas
`named`, or to one that an enclosing object in the value is taken for. -/
def Json.Anchored (store : Store) (context : Source) (named : List String) (value : Json) :
    Prop :=
  ∀ steps fields reference, (∀ step ∈ steps, step.isOpen = true) →
    value.at? steps = some (.object fields) → referenceOf? fields = some reference →
      store.ReadsWhole context reference ∨ reference ∈ named ∨
        ∃ outer inner enclosing, steps = outer ++ inner ∧
          value.at? outer = some (.object enclosing) ∧ referenceOf? enclosing = none ∧
            context.namedKey? context.origin enclosing = some reference

/-- The schemas that a value in the document worked on and what encloses it stand for.  An
object that makes a reference stands for none. -/
def Source.enclosing (context : Source) (named : List String) : Json → List String
  | .object fields =>
    match referenceOf? fields with
    | some _ => named
    | none => (context.namedKey? context.origin fields).toList ++ named
  | _ => named

/-! ### One level -/

section Level

variable {store : Store} {context : Source} {fields : Fields Json} {items : List Json}
  {named named' : List String} {name reference : String} {value part : Json} {step : Step}

/-- What a value stands for is added to what encloses it. -/
theorem Source.mem_enclosing_iff :
    reference ∈ context.enclosing named value ↔
      reference ∈ named ∨ ∃ fields, value = .object fields ∧ referenceOf? fields = none ∧
        context.namedKey? context.origin fields = some reference := by
  cases value with
  | object fields =>
    cases hmade : referenceOf? fields with
    | some other => simp [Source.enclosing, hmade]
    | none => simp [Source.enclosing, hmade, or_comm]
  | _ => simp [Source.enclosing]

theorem Source.subset_enclosing : named ⊆ context.enclosing named value :=
  fun _ hmem => mem_enclosing_iff.mpr (Or.inl hmem)

/-- What an object stands for depends on its reference and its title. -/
theorem Source.enclosing_congr {fields' : Fields Json}
    (href : Fields.get? fields "$ref" = Fields.get? fields' "$ref")
    (htitle : Fields.get? fields "title" = Fields.get? fields' "title") :
    context.enclosing named (.object fields) = context.enclosing named (.object fields') := by
  simp only [Source.enclosing, referenceOf?, Source.namedKey?, href, htitle]

theorem Json.Anchored.mono (h : value.Anchored store context named) (hsubset : named ⊆ named') :
    value.Anchored store context named' := by
  intro steps fields reference hopen hat hmade
  exact (h steps fields reference hopen hat hmade).imp_right (Or.imp_left fun hmem => hsubset hmem)

/-- The reference that an object makes itself has nothing in the value to anchor it. -/
theorem Json.Anchored.own (h : (Json.object fields).Anchored store context named)
    (hmade : referenceOf? fields = some reference) :
    store.ReadsWhole context reference ∨ reference ∈ named := by
  rcases h [] fields reference (by simp) rfl hmade with
    hwhole | hnamed | ⟨outer, inner, enclosing, hsteps, houter, hnone, -⟩
  · exact Or.inl hwhole
  · exact Or.inr hnamed
  · -- An object that makes a reference is not taken for a schema.
    obtain ⟨rfl, rfl⟩ := List.append_eq_nil_iff.mp hsteps.symm
    obtain rfl := Json.object.inj (Option.some.inj houter)
    rw [hmade] at hnone
    cases hnone

/-- References in a part are anchored with what the value stands for. -/
theorem Json.Anchored.child (h : value.Anchored store context named)
    (hopen : step.isOpen = true) (hchild : value.child? step = some part) :
    part.Anchored store context (context.enclosing named value) := by
  intro steps fields reference hsteps hat hmade
  have hat' : value.at? (step :: steps) = some (.object fields) := by
    rw [Json.at?, hchild]
    exact hat
  rcases h _ fields reference (List.forall_mem_cons.mpr ⟨hopen, hsteps⟩) hat' hmade with
    hwhole | hnamed | ⟨outer, inner, enclosing, hsplit, houter, hnone, hkey⟩
  · exact Or.inl hwhole
  · exact Or.inr (Or.inl (Source.subset_enclosing hnamed))
  · cases outer with
    | nil =>
      -- The value itself encloses the reference.
      have hself : reference ∈ context.enclosing named value :=
        Source.mem_enclosing_iff.mpr (Or.inr ⟨enclosing, Option.some.inj houter, hnone, hkey⟩)
      exact Or.inr (Or.inl hself)
    | cons first outer =>
      obtain ⟨rfl, rfl⟩ := List.cons.inj hsplit
      rw [Json.at?, hchild] at houter
      exact Or.inr (Or.inr ⟨outer, inner, enclosing, rfl, houter, hnone, hkey⟩)

/-- The references in a value are anchored when its own is, and those in its parts are with
what the value stands for. -/
theorem Json.anchored_of_children
    (hown : ∀ fields reference, value = .object fields → referenceOf? fields = some reference →
      store.ReadsWhole context reference ∨ reference ∈ named)
    (h : ∀ step part, step.isOpen = true → value.child? step = some part →
      part.Anchored store context (context.enclosing named value)) :
    value.Anchored store context named := by
  intro steps fields reference hopen hat hmade
  cases steps with
  | nil => exact (hown fields reference (Option.some.inj hat) hmade).imp_right Or.inl
  | cons step steps =>
    obtain ⟨hstep, hsteps⟩ := List.forall_mem_cons.mp hopen
    rw [Json.at?] at hat
    obtain ⟨part, hchild, hbelow⟩ := Option.bind_eq_some_iff.mp hat
    rcases h step part hstep hchild steps fields reference hsteps hbelow hmade with
      hwhole | hnamed | ⟨outer, inner, enclosing, hsplit, houter, hnone, hkey⟩
    · exact Or.inl hwhole
    · rcases Source.mem_enclosing_iff.mp hnamed with hnamed | ⟨members, rfl, hnone, hkey⟩
      · exact Or.inr (Or.inl hnamed)
      · exact Or.inr (Or.inr ⟨[], step :: steps, members, rfl, rfl, hnone, hkey⟩)
    · refine Or.inr (Or.inr
        ⟨step :: outer, inner, enclosing, by rw [hsplit]; rfl, ?_, hnone, hkey⟩)
      rw [Json.at?, hchild]
      exact houter

theorem Json.anchored_scalar (hobject : value.object? = none) (harray : value.array? = none) :
    value.Anchored store context named := by
  refine Json.anchored_of_children (fun fields reference heq _ => ?_)
    fun step part _ hchild => ?_
  · rw [heq] at hobject
    cases hobject
  · cases Json.hasPart_of_child? hchild with
    | member => cases hobject
    | item => cases harray

/-- A schema that the value itself stands for need not enclose it. -/
theorem Json.Anchored.of_cons (h : value.Anchored store context (reference :: named))
    (hself : reference ∈ context.enclosing named value) : value.Anchored store context named := by
  rcases Source.mem_enclosing_iff.mp hself with hnamed | ⟨fields, rfl, hnone, -⟩
  · exact h.mono (List.cons_subset.mpr ⟨hnamed, List.Subset.refl _⟩)
  · refine Json.anchored_of_children (fun inner other heq hmade => ?_)
      fun step part hopen hchild => (h.child hopen hchild).mono fun other hmem => ?_
    · rw [Json.object.inj heq, hmade] at hnone
      cases hnone
    · rcases Source.mem_enclosing_iff.mp hmem with hnamed | hother
      · rcases List.mem_cons.mp hnamed with rfl | hnamed
        · exact hself
        · exact Source.subset_enclosing hnamed
      · exact Source.mem_enclosing_iff.mpr (Or.inr hother)

end Level

/-! ### Markers turned back -/

section Restored

variable {store : Store} {context : Source} {fields fields' theirs : Fields Json}
  {items : List Json} {named : List String} {name : String} {value part : Json} {step : Step}

/-- What stands one open step down in an object with its markers turned back. -/
theorem Json.exists_of_child?_object (hnames : (Fields.keys fields).Nodup)
    (hopen : step.isOpen = true)
    (h : (Json.object fields).restoreMarkers.child? step = some part) :
    ∃ name value, step = .member name ∧ isOpaqueKeyword name = false ∧ name ≠ markerKeyword ∧
      Fields.get? fields name = some value ∧ part = value.restoreMarkers := by
  cases step with
  | item index => cases h
  | member name =>
    have hname : isOpaqueKeyword name = false := by simpa [Step.isOpen] using hopen
    have hne : name ≠ "$ref" := by
      rintro rfl
      cases hname
    rw [Json.restoreMarkers, Json.child?,
      get?_restoreMarker (by rwa [Json.keys_restoreMarkersFields]), if_neg hne] at h
    split at h
    · cases h
    · next hmarker =>
      rw [Json.get?_restoreMarkersFields] at h
      obtain ⟨value, hvalue, rfl⟩ := Option.map_eq_some_iff.mp h
      exact ⟨name, value, rfl, hname, hmarker, hvalue, rfl⟩

/-- The parts of an object with its markers turned back. -/
theorem Json.child?_restoreMarkers (hnames : (Fields.keys fields).Nodup)
    (hopen : isOpaqueKeyword name = false) (hmarker : name ≠ markerKeyword)
    (hget : Fields.get? fields name = some value) :
    (Json.object fields).restoreMarkers.child? (.member name) = some value.restoreMarkers := by
  have hne : name ≠ "$ref" := by
    rintro rfl
    cases hopen
  rw [Json.restoreMarkers, Json.child?,
    get?_restoreMarker (by rwa [Json.keys_restoreMarkersFields]), if_neg hne, if_neg hmarker,
    Json.get?_restoreMarkersFields, hget, Option.map_some]

/-- What stands under three names decides what an object stands for when its markers are
turned back. -/
theorem Json.get?_restoreMarkers_congr (hfields : (Fields.keys fields).Nodup)
    (htheirs : (Fields.keys theirs).Nodup)
    (h : ∀ name, name = "$ref" ∨ name = markerKeyword ∨ name = "title" →
      Fields.get? fields name = Fields.get? theirs name) :
    ∀ name, name = "$ref" ∨ name = "title" →
      Fields.get? (restoreMarker (Json.restoreMarkersFields fields)) name
        = Fields.get? (restoreMarker (Json.restoreMarkersFields theirs)) name := by
  intro name hname
  rw [get?_restoreMarker (by rwa [Json.keys_restoreMarkersFields]),
    get?_restoreMarker (by rwa [Json.keys_restoreMarkersFields])]
  simp only [Json.get?_restoreMarkersFields]
  rcases hname with rfl | rfl
  · rw [h "$ref" (Or.inl rfl), h markerKeyword (Or.inr (Or.inl rfl))]
  · rw [h "title" (Or.inr (Or.inr rfl)), h markerKeyword (Or.inr (Or.inl rfl)),
      h "$ref" (Or.inl rfl)]

/-- What is found in an object whose reference was left in place. -/
theorem Json.get?_restoreMarker_of_left (reference : String)
    (hkeys : Fields.keys fields' = Fields.keys fields)
    (hnames : (Fields.keys fields).Nodup) (hmarker : markerKeyword ∉ Fields.keys fields)
    (name : String) :
    Fields.get? (restoreMarker (Json.restoreMarkersFields (Fields.set
        (Fields.swapErase fields' "$ref") markerKeyword (.string reference)))) name
      = if name = "$ref" then some (.string reference)
        else (Fields.get? fields' name).map Json.restoreMarkers := by
  have hnames' : (Fields.keys fields').Nodup := hkeys.symm ▸ hnames
  have hset := Fields.nodup_keys_set (Fields.nodup_keys_swapErase hnames' "$ref")
    markerKeyword (Json.string reference)
  rw [get?_restoreMarker (by rwa [Json.keys_restoreMarkersFields])]
  by_cases href : name = "$ref"
  · rw [if_pos href, if_pos href, Json.get?_restoreMarkersFields, Fields.get?_set_self]
    rfl
  · rw [if_neg href, if_neg href]
    by_cases hname : name = markerKeyword
    · rw [if_pos hname, hname, Fields.get?_eq_none_iff.mpr (hkeys.symm ▸ hmarker),
        Option.map_none]
    · rw [if_neg hname, Json.get?_restoreMarkersFields, Fields.get?_set_of_ne _ _ hname,
        Fields.get?_swapErase_of_ne hnames' href]

theorem Json.anchored_array_iff :
    (Json.array items).restoreMarkers.Anchored store context named ↔
      ∀ item ∈ items, item.restoreMarkers.Anchored store context named := by
  rw [Json.restoreMarkers, Json.restoreMarkersItems_eq]
  constructor
  · intro h item hmem
    obtain ⟨index, hindex⟩ := List.mem_iff_getElem?.mp (List.mem_map_of_mem hmem)
    have hopen : (Step.item index).isOpen = true := rfl
    exact h.child hopen hindex
  · intro h
    refine Json.anchored_of_children (fun _ _ heq => by cases heq) fun step part _ hchild => ?_
    cases step with
    | member name => cases hchild
    | item index =>
      obtain ⟨item, hitem, rfl⟩ := List.mem_map.mp (List.mem_of_getElem? hchild)
      exact h item hitem

/-- References in an object with its markers turned back are anchored when its own is, and
those in its parts are with what the object stands for. -/
theorem Json.anchored_object (hnames : (Fields.keys fields).Nodup)
    (hown : ∀ reference, referenceOf? (restoreMarker (Json.restoreMarkersFields fields))
      = some reference → store.ReadsWhole context reference ∨ reference ∈ named)
    (hparts : ∀ name value, isOpaqueKeyword name = false → name ≠ markerKeyword →
      Fields.get? fields name = some value → value.restoreMarkers.Anchored store context
        (context.enclosing named (Json.object fields).restoreMarkers)) :
    (Json.object fields).restoreMarkers.Anchored store context named := by
  refine Json.anchored_of_children (fun inner reference heq hmade => ?_)
    fun step part hopen hchild => ?_
  · rw [Json.restoreMarkers, Json.object.injEq] at heq
    exact hown reference (heq ▸ hmade)
  · obtain ⟨name, value, rfl, hname, hmarker, hvalue, rfl⟩ :=
      Json.exists_of_child?_object hnames hopen hchild
    exact hparts name value hname hmarker hvalue

/-- What an object stands for does not change when members are added to it that leave its
reference, its marker and its title as they are. -/
theorem Json.enclosing_of_merged (hfields : (Fields.keys fields).Nodup)
    (htheirs : (Fields.keys theirs).Nodup)
    (hsame : ∀ name, name = "$ref" ∨ name = markerKeyword ∨ name = "title" →
      Fields.get? fields name = Fields.get? theirs name) (named : List String) :
    context.enclosing named (Json.object fields).restoreMarkers
      = context.enclosing named (Json.object theirs).restoreMarkers := by
  have hget := Json.get?_restoreMarkers_congr hfields htheirs hsame
  rw [Json.restoreMarkers, Json.restoreMarkers]
  exact Source.enclosing_congr (hget "$ref" (Or.inl rfl)) (hget "title" (Or.inr rfl))

/-- **Anchors hold when members are added to an object** that leave its reference, its marker
and its title as they are, and in which references are anchored with what it stands for. -/
theorem Json.anchored_of_merged (hfields : (Fields.keys fields).Nodup)
    (htheirs : (Fields.keys theirs).Nodup)
    (hsame : ∀ name, name = "$ref" ∨ name = markerKeyword ∨ name = "title" →
      Fields.get? fields name = Fields.get? theirs name)
    (h : (Json.object theirs).restoreMarkers.Anchored store context named)
    (hparts : ∀ name value, isOpaqueKeyword name = false → Fields.get? fields name = some value →
      Fields.get? theirs name = some value ∨ value.restoreMarkers.Anchored store context
        (context.enclosing named (Json.object theirs).restoreMarkers)) :
    (Json.object fields).restoreMarkers.Anchored store context named := by
  refine Json.anchored_object hfields (fun reference hmade => ?_)
    fun name value hname hmarker hvalue => ?_
  · rw [referenceOf?,
      Json.get?_restoreMarkers_congr hfields htheirs hsame "$ref" (Or.inl rfl)] at hmade
    rw [Json.restoreMarkers] at h
    exact h.own hmade
  · rw [Json.enclosing_of_merged hfields htheirs hsame]
    rcases hparts name value hname hvalue with hbefore | hadded
    · have hopen : (Step.member name).isOpen = true := by simp [Step.isOpen, hname]
      exact h.child hopen (Json.child?_restoreMarkers htheirs hname hmarker hbefore)
    · exact hadded

end Restored

/-! ### Keywords laid over a target -/

/-- Members without a reference, a marker and a title. -/
def Bare (fields : Fields Json) : Prop :=
  ∀ name, name = "$ref" ∨ name = markerKeyword ∨ name = "title" → Fields.get? fields name = none

section Overlay

variable {store : Store} {context : Source} {fields beside theirs : Fields Json}
  {named named' : List String} {keyword : String} {mine other target : Json}

private theorem Bare.get?_restoreMarkers (h : Bare fields) (hnames : (Fields.keys fields).Nodup)
    (name : String) (hname : name = "$ref" ∨ name = "title") :
    Fields.get? (restoreMarker (Json.restoreMarkersFields fields)) name = none := by
  have hempty : ∀ name, name = "$ref" ∨ name = markerKeyword ∨ name = "title" →
      Fields.get? fields name = Fields.get? ([] : Fields Json) name :=
    fun name hname => h name hname
  have hnil : (Fields.keys ([] : Fields Json)).Nodup := List.nodup_nil
  rw [Json.get?_restoreMarkers_congr hnames hnil hempty name hname]
  rfl

/-- A bare object makes no reference. -/
theorem Bare.referenceOf? (h : Bare fields) (hnames : (Fields.keys fields).Nodup) :
    RpcSchema.referenceOf? (restoreMarker (Json.restoreMarkersFields fields)) = none := by
  rw [RpcSchema.referenceOf?, h.get?_restoreMarkers hnames "$ref" (Or.inl rfl)]
  rfl

/-- A bare object stands for nothing. -/
theorem Bare.enclosing (h : Bare fields) (hnames : (Fields.keys fields).Nodup)
    (named : List String) :
    context.enclosing named (Json.object fields).restoreMarkers = named := by
  have hnil : ∀ name, Fields.get? ([] : Fields Json) name = none := fun _ => rfl
  rw [Json.restoreMarkers, Source.enclosing_congr
    ((h.get?_restoreMarkers hnames "$ref" (Or.inl rfl)).trans (hnil "$ref").symm)
    ((h.get?_restoreMarkers hnames "title" (Or.inr rfl)).trans (hnil "title").symm)]
  rfl

private theorem anchored_overlayKeyword (hmineNames : mine.DistinctNames)
    (hotherNames : other.DistinctNames)
    (hbare : ∀ inner, keyword = "properties" → mine = .object inner → Bare inner)
    (hmine : mine.restoreMarkers.Anchored store context named)
    (hother : other.restoreMarkers.Anchored store context named) :
    (overlayKeyword keyword mine other).restoreMarkers.Anchored store context named := by
  unfold overlayKeyword
  split
  · next mineFields otherFields =>
    -- Bare properties stand for nothing, so what anchors their parts encloses them.
    have hbare := hbare mineFields rfl rfl
    have hkeys := (Json.everyObject_object_iff.mp hmineNames).1
    have hotherKeys := (Json.everyObject_object_iff.mp hotherNames).1
    refine Json.anchored_of_merged (Fields.nodup_keys_foldl_set hotherKeys _) hotherKeys
      (fun name hname => ?_) hother fun name value hname hvalue => ?_
    · rw [Fields.get?_foldl_set hkeys, hbare name hname, Option.none_or]
    · rw [Fields.get?_foldl_set hkeys] at hvalue
      cases hown : Fields.get? mineFields name with
      | none =>
        rw [hown, Option.none_or] at hvalue
        exact Or.inl hvalue
      | some part =>
        rw [hown, Option.some_or, Option.some.injEq] at hvalue
        have hmarker : name ≠ markerKeyword := by
          rintro rfl
          rw [hbare markerKeyword (Or.inr (Or.inl rfl))] at hown
          cases hown
        have hopen : (Step.member name).isOpen = true := by simp [Step.isOpen, hname]
        have hpart := hmine.child hopen (Json.child?_restoreMarkers hkeys hname hmarker hown)
        rw [hbare.enclosing hkeys, hvalue] at hpart
        exact Or.inr (hpart.mono Source.subset_enclosing)
  · rw [Json.anchored_array_iff] at hmine hother ⊢
    intro item hmem
    exact (mem_of_mem_unionOf hmem).elim (hother item) (hmine item)
  · exact hmine

/-- **Anchors hold when keywords are laid over a target**, if these have no title, nor have
the properties among them. -/
theorem Json.anchored_overlay (hbesideNames : (Json.object beside).DistinctNames)
    (htheirsNames : (Json.object theirs).DistinctNames) (hbare : Bare beside)
    (hproperties : ∀ inner, Fields.get? beside "properties" = some (.object inner) → Bare inner)
    (hsubset : named ⊆ named')
    (hparts : ∀ name part, isOpaqueKeyword name = false → Fields.get? beside name = some part →
      part.restoreMarkers.Anchored store context named)
    (htheirs : (Json.object theirs).restoreMarkers.Anchored store context named') :
    (overlayTarget beside (.object theirs)).restoreMarkers.Anchored store context named' := by
  have hkeys := (Json.everyObject_object_iff.mp htheirsNames).1
  have hnames : (Json.object (theirs.foldl overlayMember beside)).DistinctNames :=
    hbesideNames.overlayTarget htheirsNames
  rw [overlayTarget]
  have hget := @get?_overlay beside theirs hkeys
  refine Json.anchored_of_merged (Json.everyObject_object_iff.mp hnames).1 hkeys
    (fun name hname => by rw [hget, hbare name hname]) htheirs fun name value hname hvalue => ?_
  rw [hget] at hvalue
  cases hmine : Fields.get? beside name with
  | none =>
    rw [hmine] at hvalue
    exact Or.inl hvalue
  | some mine =>
    have hown : mine.restoreMarkers.Anchored store context
        (context.enclosing named' (Json.object theirs).restoreMarkers) :=
      (hparts name mine hname hmine).mono (List.Subset.trans hsubset Source.subset_enclosing)
    cases hother : Fields.get? theirs name with
    | none =>
      rw [hmine, hother, Option.some.injEq] at hvalue
      exact Or.inr (hvalue ▸ hown)
    | some other =>
      -- A keyword on both sides: what is put together is anchored on each side.
      rw [hmine, hother, Option.some.injEq] at hvalue
      have hmarker : name ≠ markerKeyword := by
        rintro rfl
        rw [hbare markerKeyword (Or.inr (Or.inl rfl))] at hmine
        cases hmine
      have hopen : (Step.member name).isOpen = true := by simp [Step.isOpen, hname]
      rw [← hvalue]
      refine Or.inr (anchored_overlayKeyword
        ((Json.everyObject_object_iff.mp hbesideNames).2 _ _ (Fields.mem_of_get? hmine))
        ((Json.everyObject_object_iff.mp htheirsNames).2 _ _ (Fields.mem_of_get? hother)) ?_ hown
        (htheirs.child hopen (Json.child?_restoreMarkers hkeys hname hmarker hother)))
      rintro inner rfl rfl
      exact hproperties inner hmine

/-- Bare keywords do not change what a target stands for. -/
theorem Json.enclosing_overlay (hbesideNames : (Json.object beside).DistinctNames)
    (htheirsNames : (Json.object theirs).DistinctNames) (hbare : Bare beside)
    (named : List String) :
    context.enclosing named (overlayTarget beside (.object theirs)).restoreMarkers
      = context.enclosing named (Json.object theirs).restoreMarkers := by
  have hkeys := (Json.everyObject_object_iff.mp htheirsNames).1
  have hnames : (Json.object (theirs.foldl overlayMember beside)).DistinctNames :=
    hbesideNames.overlayTarget htheirsNames
  rw [overlayTarget]
  exact Json.enclosing_of_merged (Json.everyObject_object_iff.mp hnames).1 hkeys
    (fun name hname => by rw [get?_overlay hkeys, hbare name hname]) named

/-- Anchors hold when bare keywords are laid over a target, whatever it is. -/
theorem Json.anchored_overlayTarget (hbesideNames : (Json.object beside).DistinctNames)
    (htargetNames : target.DistinctNames) (hbare : Bare beside)
    (hproperties : ∀ inner, Fields.get? beside "properties" = some (.object inner) → Bare inner)
    (hsubset : named ⊆ named')
    (hparts : ∀ name part, isOpaqueKeyword name = false → Fields.get? beside name = some part →
      part.restoreMarkers.Anchored store context named)
    (htarget : target.restoreMarkers.Anchored store context named') :
    (overlayTarget beside target).restoreMarkers.Anchored store context named' := by
  cases target with
  | object theirs =>
    exact Json.anchored_overlay hbesideNames htargetNames hbare hproperties hsubset hparts htarget
  | _ =>
    unfold overlayTarget
    dsimp only
    split
    · exact htarget
    · -- The keywords stand alone.
      have hkeys := (Json.everyObject_object_iff.mp hbesideNames).1
      refine Json.anchored_object hkeys (fun reference hmade => ?_) fun name value hname _ hvalue =>
        (hparts name value hname hvalue).mono
          (List.Subset.trans hsubset Source.subset_enclosing)
      rw [hbare.referenceOf? hkeys] at hmade
      cases hmade

end Overlay

end RpcSchema
