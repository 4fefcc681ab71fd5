import RpcSchema.Proofs.Dereference.Canonical
import RpcSchema.Proofs.Dereference.Markers
import RpcSchema.Proofs.Dereference.Sites

/-!
# References turned into local ones

While a document is localized, references into it are kept, and a reference into another
document, which is a bundle, becomes one to the component of the name that its target is
copied under.  Nothing is left in place and nothing is inlined.  So what the walk makes of a
value does not depend on what led to it, but only on the value, the document it stands in, and
where the document worked on stands.

## Main definitions

* `Site.Redirects` — a value makes a reference into a bundle, which is turned into one to
  the component of a name.
* `Store.localized` — a value of a document with all such references turned.
* `Store.turned` — the same with its markers turned back into references.

## Main results

* `Walks.eq_localized` — what the walk makes of a value.
* `Store.get?_localizedMembers`, `Store.localizedItems_eq` — the parts of what it makes of it.
* `Store.at?_turned` — what stands at the end of a list of names.
-/

namespace RpcSchema

open Relation

/-- Keep references within the document worked on, and turn those into bundles into local
ones. -/
def DereferenceOptions.localizing : DereferenceOptions := ⟨true, true⟩

/-- `Redirects store home site name target` says that `site` makes a reference into a bundle,
to `target`, which is turned into one to the component `name`, where the document worked on
stands at `home`. -/
def Site.Redirects (store : Store) (home : Origin) (site : Site) (name : String)
    (target : Target) : Prop :=
  ∃ reference, site.made? = some reference ∧ store.locate? reference site.source = some target ∧
    target.source.origin ≠ home ∧
      name = Walk.componentName target (Reference.fragment reference)

namespace Store

/-- The name of the component that the reference of members is turned to; none when they
make no reference, or one into the document worked on. -/
def redirection? (store : Store) (home : Origin) (source : Source) (fields : Fields Json) :
    Option String := do
  let reference ← referenceOf? fields
  let target ← store.locate? reference source
  if target.source.origin = home then none
  else some (Walk.componentName target (Reference.fragment reference))

/-- Members with their reference turned to the component of a name, if there is one. -/
def redirect (name? : Option String) (fields : Fields Json) : Fields Json :=
  match name? with
  | some name => Fields.set fields "$ref" (.string (Reference.toComponent name))
  | none => fields

mutual

/-- A value of a document with its references into bundles turned into local ones. -/
def localized (store : Store) (home : Origin) (source : Source) : Json → Json
  | .object fields =>
    .object (redirect (store.redirection? home source fields)
      (localizedMembers store home source fields))
  | .array items => .array (localizedItems store home source items)
  | other => other

/-- Members with their references into bundles turned, but for those that hold data. -/
def localizedMembers (store : Store) (home : Origin) (source : Source) :
    List (String × Json) → List (String × Json)
  | [] => []
  | (name, part) :: rest =>
    (name, if isOpaqueKeyword name then part else localized store home source part)
      :: localizedMembers store home source rest

/-- Items with their references into bundles turned. -/
def localizedItems (store : Store) (home : Origin) (source : Source) : List Json → List Json
  | [] => []
  | item :: rest => localized store home source item :: localizedItems store home source rest

end

/-- A value of a document as it stands in a localized document: with its references into
bundles turned into local ones, and its markers turned back into references. -/
def turned (store : Store) (home : Origin) (source : Source) (value : Json) : Json :=
  (store.localized home source value).restoreMarkers

end Store

/-! ### Redirections -/

section Redirection

variable {store : Store} {home : Origin} {source : Source} {fields : Fields Json}
  {reference name : String} {target : Target}

/-- What is turned makes a reference. -/
theorem Site.Redirects.exists_made? {site : Site} (h : site.Redirects store home name target) :
    ∃ reference, site.made? = some reference := by
  obtain ⟨reference, hmade, -⟩ := h
  exact ⟨reference, hmade⟩

/-- A reference is turned to the component of a name when it redirects to it. -/
theorem Store.redirection?_eq_some_iff :
    store.redirection? home source fields = some name ↔
      ∃ target, Site.Redirects store home ⟨source, .object fields⟩ name target := by
  constructor
  · intro h
    obtain ⟨reference, hmade, h⟩ := Option.bind_eq_some_iff.mp h
    obtain ⟨target, hfound, h⟩ := Option.bind_eq_some_iff.mp h
    split at h
    · cases h
    · next horigin => exact ⟨target, reference, hmade, hfound, horigin, (Option.some.inj h).symm⟩
  · rintro ⟨target, reference, hmade, hfound, horigin, rfl⟩
    have hmade : referenceOf? fields = some reference := hmade
    simp [Store.redirection?, hmade, hfound, horigin]

theorem Store.redirection?_of_none (h : referenceOf? fields = none) :
    store.redirection? home source fields = none := by
  rw [Store.redirection?, h]
  rfl

/-- While a document is localized, references into it are kept, and targets elsewhere are copied. -/
theorem Walk.treatment_localizing {frame : Frame} :
    Walk.treatment .localizing frame reference target =
      if target.source.origin = frame.home then .keep
      else .copy (Walk.componentName target (Reference.fragment reference)) := by
  by_cases h : target.source.origin = frame.home <;>
    simp [Walk.treatment, DereferenceOptions.localizing, h]

theorem RefersTo.redirection?_of_keep {frame : Frame}
    (href : RefersTo store source fields reference target)
    (htreat : Walk.treatment .localizing frame reference target = .keep) :
    store.redirection? frame.home source fields = none := by
  have horigin := (Walk.treatment_eq_keep_iff.mp htreat).2
  simp [Store.redirection?, href.made, href.found, horigin]

theorem RefersTo.redirects_of_copy {frame : Frame}
    (href : RefersTo store source fields reference target)
    (htreat : Walk.treatment .localizing frame reference target = .copy name) :
    Site.Redirects store frame.home ⟨source, .object fields⟩ name target := by
  have horigin := (Walk.origin_ne_context_of_copy htreat).2
  rw [Walk.treatment_localizing, if_neg horigin, Walk.Treatment.copy.injEq] at htreat
  exact ⟨reference, href.made, href.found, horigin, htreat.symm⟩

end Redirection

/-! ### What the walk makes of a value -/

mutual

/-- **What the walk makes of a value** is the value with its references into bundles
turned into local ones. -/
theorem Walks.eq_localized {store : Store} {frame : Frame} {value walked : Json}
    {log log' : WalkLog} : Walks ⟨store, .localizing⟩ frame value log walked log' →
      walked = store.localized frame.home frame.source value
  | .scalar hobject harray => by
    cases value with
    | object fields => cases hobject
    | array items => cases harray
    | _ => rfl
  | .array hitems => by rw [Store.localized, hitems.eq_localizedItems]
  | .object hnone hmembers => by
    rw [Store.localized, Store.redirection?_of_none hnone, Store.redirect,
      hmembers.eq_localizedMembers, Frame.inside_home, Frame.inside_source]
  | .keep href htreat hmembers => by
    rw [Store.localized, href.redirection?_of_keep htreat, Store.redirect,
      hmembers.eq_localizedMembers, Frame.inside_home, Frame.inside_source]
  | .copied href htreat hmembers _ => by
    rw [Store.localized,
      Store.redirection?_eq_some_iff.mpr ⟨_, href.redirects_of_copy htreat⟩, Store.redirect,
      hmembers.eq_localizedMembers, Frame.inside_home, Frame.inside_source]
  | .copy href htreat hmembers _ _ _ => by
    rw [Store.localized,
      Store.redirection?_eq_some_iff.mpr ⟨_, href.redirects_of_copy htreat⟩, Store.redirect,
      hmembers.eq_localizedMembers, Frame.inside_home, Frame.inside_source]
  | .leave _ htreat _ => by
    rw [Walk.treatment_localizing] at htreat
    split at htreat <;> cases htreat
  | .inline _ htreat _ _ => by
    rw [Walk.treatment_localizing] at htreat
    split at htreat <;> cases htreat

theorem WalksMembers.eq_localizedMembers {store : Store} {frame : Frame}
    {fields fields' : Fields Json} {log log' : WalkLog} :
    WalksMembers ⟨store, .localizing⟩ frame fields log fields' log' →
      fields' = store.localizedMembers frame.home frame.source fields
  | .nil => rfl
  | .data hname hrest => by
    rw [Store.localizedMembers, if_pos hname, hrest.eq_localizedMembers]
  | .member hname hpart hrest => by
    rw [Store.localizedMembers, if_neg (by simp [hname]), hrest.eq_localizedMembers,
      hpart.eq_localized]
    rfl

theorem WalksItems.eq_localizedItems {store : Store} {frame : Frame} {index : Nat}
    {items items' : List Json} {log log' : WalkLog} :
    WalksItems ⟨store, .localizing⟩ frame index items log items' log' →
      items' = store.localizedItems frame.home frame.source items
  | .nil => rfl
  | .item hitem hrest => by
    rw [Store.localizedItems, hrest.eq_localizedItems, hitem.eq_localized]
    rfl

end

/-! ### Parts -/

section Parts

variable {store : Store} {home : Origin} {source : Source} {fields : Fields Json} {name : String}

theorem Store.keys_localizedMembers (fields : Fields Json) :
    Fields.keys (store.localizedMembers home source fields) = Fields.keys fields := by
  induction fields with
  | nil => rfl
  | cons entry rest ih =>
    obtain ⟨name, part⟩ := entry
    rw [Store.localizedMembers, Fields.keys_cons, Fields.keys_cons, ih]

theorem Store.get?_localizedMembers (fields : Fields Json) (name : String) :
    Fields.get? (store.localizedMembers home source fields) name =
      (Fields.get? fields name).map fun part =>
        if isOpaqueKeyword name then part else store.localized home source part := by
  induction fields with
  | nil => rfl
  | cons entry rest ih =>
    obtain ⟨other, part⟩ := entry
    rw [Store.localizedMembers, Fields.get?_cons, Fields.get?_cons, ih]
    by_cases hother : other = name
    · rw [if_pos hother, if_pos hother, hother]
      rfl
    · rw [if_neg hother, if_neg hother]

theorem Store.localizedItems_eq (items : List Json) :
    store.localizedItems home source items = items.map (store.localized home source) := by
  induction items with
  | nil => rfl
  | cons item rest ih => rw [Store.localizedItems, ih, List.map_cons]

/-- Members that are redirected have a reference to begin with. -/
theorem Store.mem_keys_of_redirection? (h : store.redirection? home source fields = some name) :
    "$ref" ∈ Fields.keys fields := by
  obtain ⟨reference, hmade, -⟩ := Option.bind_eq_some_iff.mp h
  exact Fields.mem_keys_of_mem (Fields.mem_of_get? (referenceOf?_eq_some_iff.mp hmade))

/-- Members keep their names. -/
theorem Store.keys_redirect (fields : Fields Json) :
    Fields.keys (Store.redirect (store.redirection? home source fields)
      (store.localizedMembers home source fields)) = Fields.keys fields := by
  cases hname : store.redirection? home source fields with
  | none => exact Store.keys_localizedMembers fields
  | some name =>
    have hkeys : Fields.keys (store.localizedMembers home source fields) = Fields.keys fields :=
      Store.keys_localizedMembers fields
    have hmem := hkeys ▸ Store.mem_keys_of_redirection? hname
    rw [Store.redirect, Fields.keys_set_of_mem hmem, hkeys]

/-- Only the reference is redirected. -/
theorem Store.get?_redirect_of_ne (name? : Option String) (fields : Fields Json)
    (hne : name ≠ "$ref") :
    Fields.get? (Store.redirect name? fields) name = Fields.get? fields name := by
  cases name? with
  | none => rfl
  | some other => exact Fields.get?_set_of_ne _ _ hne

/-- Objects stay objects. -/
theorem Store.isObject_turned (value : Json) :
    (store.turned home source value).isObject = value.isObject := by
  cases value <;> rfl

/-- A member that holds a schema is turned on its own. -/
theorem Store.child?_turned (hnames : (Fields.keys fields).Nodup)
    (hopen : isOpaqueKeyword name = false) (hmarker : name ≠ markerKeyword) :
    (store.turned home source (.object fields)).child? (.member name)
      = (Fields.get? fields name).map (store.turned home source) := by
  have href : name ≠ "$ref" := by
    rintro rfl
    cases hopen
  have hkeys : (Fields.keys (Json.restoreMarkersFields
      (Store.redirect (store.redirection? home source fields)
        (store.localizedMembers home source fields)))).Nodup := by
    rwa [Json.keys_restoreMarkersFields, Store.keys_redirect]
  rw [Store.turned, Store.localized, Json.restoreMarkers, Json.child?, get?_restoreMarker hkeys,
    if_neg href, if_neg hmarker, Json.get?_restoreMarkersFields, Store.get?_redirect_of_ne _ _ href,
    Store.get?_localizedMembers, Option.map_map, hopen]
  rfl

/-- **What stands at the end of a list of names** that lead to schemas is turned on its
own. -/
theorem Store.at?_turned (names : List String) {value : Json} (hnames : value.DistinctNames)
    (hopen : ∀ name ∈ names, isOpaqueKeyword name = false ∧ name ≠ markerKeyword) :
    (store.turned home source value).at? (names.map .member)
      = (value.at? (names.map .member)).map (store.turned home source) := by
  induction names generalizing value with
  | nil => rfl
  | cons name names ih =>
    obtain ⟨⟨hname, hmarker⟩, hrest⟩ := List.forall_mem_cons.mp hopen
    cases value with
    | object fields =>
      obtain ⟨hown, hparts⟩ := Json.everyObject_object_iff.mp hnames
      rw [List.map_cons, Json.at?, Json.at?, Store.child?_turned hown hname hmarker, Json.child?]
      cases hget : Fields.get? fields name with
      | none => rfl
      | some part => exact ih (hparts name part (Fields.mem_of_get? hget)) hrest
    | _ => rfl

end Parts

end RpcSchema
