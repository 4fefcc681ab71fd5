import RpcSchema.Dereference
import RpcSchema.Proofs.Json.Objects

/-!
# Markers turned back into references

While values are walked, a reference that is left in place is a member of another name.
In the end that member is turned into a reference again.

## Main results

* `get?_restoreMarker` — what is found under a name afterwards.
* `Json.restoreMarkers_of_lacks` — without markers nothing changes.
* `Json.lacks_restoreMarkers` — afterwards there are no markers.
* `Json.distinctNames_restoreMarkers` — names stay distinct.
-/

namespace RpcSchema

/-! ### One level -/

theorem markerKeyword_ne : markerKeyword ≠ "$ref" := by decide

/-- **What is found under a name** in an object whose marker is turned into a reference. -/
theorem get?_restoreMarker {fields : Fields Json} (h : (Fields.keys fields).Nodup)
    (name : String) :
    Fields.get? (restoreMarker fields) name =
      if name = "$ref" then (Fields.get? fields markerKeyword).or (Fields.get? fields "$ref")
      else if name = markerKeyword then none
      else Fields.get? fields name := by
  unfold restoreMarker
  cases hmarker : Fields.get? fields markerKeyword with
  | none =>
    dsimp only
    by_cases href : name = "$ref"
    · subst href
      rw [if_pos rfl, Option.none_or]
    · rw [if_neg href]
      by_cases hname : name = markerKeyword
      · subst hname
        rw [if_pos rfl, hmarker]
      · rw [if_neg hname]
  | some reference =>
    by_cases href : name = "$ref"
    · subst href
      rw [if_pos rfl, Option.some_or]
      exact Fields.get?_set_self _ _ _
    · rw [if_neg href]
      dsimp only
      rw [Fields.get?_set_of_ne _ _ href]
      by_cases hname : name = markerKeyword
      · subst hname
        rw [if_pos rfl, Fields.get?_swapErase_self h]
      · rw [if_neg hname, Fields.get?_swapErase_of_ne h hname]

/-- What an object holds whose marker is turned into a reference, it held before. -/
theorem mem_of_mem_restoreMarker {fields : Fields Json} {name : String} {part : Json}
    (h : (name, part) ∈ restoreMarker fields) : ∃ other, (other, part) ∈ fields := by
  unfold restoreMarker at h
  cases hmarker : Fields.get? fields markerKeyword with
  | none =>
    rw [hmarker] at h
    exact ⟨name, h⟩
  | some reference =>
    rw [hmarker] at h
    rcases Fields.mem_set h with heq | hmem
    · rw [(Prod.mk.inj heq).2]
      exact ⟨markerKeyword, Fields.mem_of_get? hmarker⟩
    · exact ⟨name, Fields.mem_of_mem_swapErase hmem⟩

/-- Names stay distinct. -/
theorem nodup_keys_restoreMarker {fields : Fields Json} (h : (Fields.keys fields).Nodup) :
    (Fields.keys (restoreMarker fields)).Nodup := by
  unfold restoreMarker
  split
  · exact Fields.nodup_keys_set (Fields.nodup_keys_swapErase h _) _ _
  · exact h

/-! ### All levels -/

theorem Json.string?_restoreMarkers (value : Json) :
    value.restoreMarkers.string? = value.string? := by
  cases value <;> rfl

theorem Json.restoreMarkersItems_eq (items : List Json) :
    Json.restoreMarkersItems items = items.map Json.restoreMarkers := by
  induction items with
  | nil => rfl
  | cons item rest ih => rw [Json.restoreMarkersItems, ih, List.map_cons]

theorem Json.restoreMarkersFields_eq (fields : Fields Json) :
    Json.restoreMarkersFields fields
      = fields.map fun entry => (entry.1, entry.2.restoreMarkers) := by
  induction fields with
  | nil => rfl
  | cons entry rest ih =>
    obtain ⟨name, part⟩ := entry
    rw [Json.restoreMarkersFields, ih, List.map_cons]

theorem Json.keys_restoreMarkersFields (fields : Fields Json) :
    Fields.keys (Json.restoreMarkersFields fields) = Fields.keys fields := by
  simp only [Json.restoreMarkersFields_eq, Fields.keys, List.map_map, Function.comp_def]

theorem Json.get?_restoreMarkersFields (fields : Fields Json) (name : String) :
    Fields.get? (Json.restoreMarkersFields fields) name
      = (Fields.get? fields name).map Json.restoreMarkers := by
  induction fields with
  | nil => rfl
  | cons entry rest ih =>
    obtain ⟨other, part⟩ := entry
    rw [Json.restoreMarkersFields, Fields.get?_cons, Fields.get?_cons, ih]
    split <;> rfl

mutual

/-- **A value without markers stays as it is.** -/
theorem Json.restoreMarkers_of_lacks :
    ∀ {value : Json}, value.Lacks markerKeyword → value.restoreMarkers = value
  | .null, _ => rfl
  | .bool _, _ => rfl
  | .number _, _ => rfl
  | .string _, _ => rfl
  | .array items, h => by
    rw [Json.restoreMarkers,
      Json.restoreMarkersItems_of_lacks (Json.everyObject_array_iff.mp h)]
  | .object fields, h => by
    obtain ⟨hfields, hparts⟩ := Json.everyObject_object_iff.mp h
    rw [Json.restoreMarkers, Json.restoreMarkersFields_of_lacks hparts, restoreMarker,
      Fields.get?_eq_none_iff.mpr hfields]

theorem Json.restoreMarkersItems_of_lacks : ∀ {items : List Json},
    (∀ item ∈ items, item.Lacks markerKeyword) → Json.restoreMarkersItems items = items
  | [], _ => rfl
  | item :: rest, h => by
    rw [Json.restoreMarkersItems, Json.restoreMarkers_of_lacks (h item (List.mem_cons_self ..)),
      Json.restoreMarkersItems_of_lacks fun other hmem => h other (List.mem_cons_of_mem _ hmem)]

theorem Json.restoreMarkersFields_of_lacks : ∀ {fields : Fields Json},
    (∀ name part, (name, part) ∈ fields → part.Lacks markerKeyword) →
      Json.restoreMarkersFields fields = fields
  | [], _ => rfl
  | (name, part) :: rest, h => by
    rw [Json.restoreMarkersFields,
      Json.restoreMarkers_of_lacks (h name part (List.mem_cons_self ..)),
      Json.restoreMarkersFields_of_lacks fun other value hmem =>
        h other value (List.mem_cons_of_mem _ hmem)]

end

section EveryObject

variable {p q : Fields Json → Prop}

mutual

/-- **What turning a marker back makes of every object holds of all objects afterwards**, if
it depends on the names in the object only. -/
theorem Json.EveryObject.restoreMarkers
    (hnames : ∀ fields fields', Fields.keys fields' = Fields.keys fields → p fields → p fields')
    (hmarker : ∀ fields, p fields → q (restoreMarker fields)) :
    ∀ {value : Json}, value.EveryObject p → value.restoreMarkers.EveryObject q
  | .null, _ => Json.everyObject_scalar rfl rfl
  | .bool _, _ => Json.everyObject_scalar rfl rfl
  | .number _, _ => Json.everyObject_scalar rfl rfl
  | .string _, _ => Json.everyObject_scalar rfl rfl
  | .array items, h => by
    rw [Json.restoreMarkers, Json.everyObject_array_iff]
    exact Json.everyObject_restoreMarkersItems hnames hmarker (Json.everyObject_array_iff.mp h)
  | .object fields, h => by
    obtain ⟨hfields, hparts⟩ := Json.everyObject_object_iff.mp h
    rw [Json.restoreMarkers, Json.everyObject_object_iff]
    refine ⟨hmarker _ (hnames _ _ (Json.keys_restoreMarkersFields fields) hfields), ?_⟩
    intro name part hmem
    obtain ⟨other, hmem⟩ := mem_of_mem_restoreMarker hmem
    exact Json.everyObject_restoreMarkersFields hnames hmarker hparts other part hmem

theorem Json.everyObject_restoreMarkersItems
    (hnames : ∀ fields fields', Fields.keys fields' = Fields.keys fields → p fields → p fields')
    (hmarker : ∀ fields, p fields → q (restoreMarker fields)) : ∀ {items : List Json},
    (∀ item ∈ items, item.EveryObject p) →
      ∀ item ∈ Json.restoreMarkersItems items, item.EveryObject q
  | [], _, _, hmem => absurd hmem List.not_mem_nil
  | item :: rest, h, part, hmem => by
    rw [Json.restoreMarkersItems] at hmem
    rcases List.mem_cons.mp hmem with rfl | hmem
    · exact Json.EveryObject.restoreMarkers hnames hmarker (h item (List.mem_cons_self ..))
    · exact Json.everyObject_restoreMarkersItems hnames hmarker
        (fun other hother => h other (List.mem_cons_of_mem _ hother)) part hmem

theorem Json.everyObject_restoreMarkersFields
    (hnames : ∀ fields fields', Fields.keys fields' = Fields.keys fields → p fields → p fields')
    (hmarker : ∀ fields, p fields → q (restoreMarker fields)) : ∀ {fields : Fields Json},
    (∀ name part, (name, part) ∈ fields → part.EveryObject p) →
      ∀ name part, (name, part) ∈ Json.restoreMarkersFields fields → part.EveryObject q
  | [], _, _, _, hmem => absurd hmem List.not_mem_nil
  | (other, value) :: rest, h, name, part, hmem => by
    rw [Json.restoreMarkersFields] at hmem
    rcases List.mem_cons.mp hmem with heq | hmem
    · rw [(Prod.mk.inj heq).2]
      exact Json.EveryObject.restoreMarkers hnames hmarker (h other value (List.mem_cons_self ..))
    · exact Json.everyObject_restoreMarkersFields hnames hmarker
        (fun key inner hinner => h key inner (List.mem_cons_of_mem _ hinner)) name part hmem

end

end EveryObject

/-- **Afterwards there are no markers**, if names are distinct. -/
theorem Json.lacks_restoreMarkers {value : Json} (h : value.DistinctNames) :
    value.restoreMarkers.Lacks markerKeyword := by
  refine Json.EveryObject.restoreMarkers (fun fields fields' hkeys hfields => hkeys ▸ hfields)
    (fun fields hfields => ?_) h
  rw [← Fields.get?_eq_none_iff, get?_restoreMarker hfields, if_neg markerKeyword_ne, if_pos rfl]

/-- **Names stay distinct.** -/
theorem Json.distinctNames_restoreMarkers {value : Json} (h : value.DistinctNames) :
    value.restoreMarkers.DistinctNames :=
  Json.EveryObject.restoreMarkers (fun _ _ hkeys hfields => hkeys ▸ hfields)
    (fun _ hfields => nodup_keys_restoreMarker hfields) h

end RpcSchema
