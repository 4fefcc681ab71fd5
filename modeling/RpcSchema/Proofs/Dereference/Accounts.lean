import RpcSchema.Proofs.Dereference.Calls
import RpcSchema.Proofs.Dereference.Markers
import RpcSchema.Proofs.Dereference.Overlay

/-!
# Accounts of what is left in a value

A walked value may still hold references, and markers in the place of references.  An
account of it gives a reason for each of them that depends on where in the value it
stands.  Accounts are put together as values are: from those of the parts, and from
those of the two sides when keywords are laid over a target.

Positions count, so putting lists together would spoil an account.  Only lists of
required names are put together, and names do no harm.

## Main definitions

* `Pointer.below` — the pointer at the end of a list of steps.
* `Step.isOpen` — whether a step leads to schemas rather than data.
* `Json.HoldsReference` — a reference that open steps lead to.
* `Json.Accounted` — all references and markers that open steps lead to have a reason.

## Main results

* `Json.accounted_object_iff`, `Json.accounted_array_iff` — one level at a time.
* `Json.Accounted.overlayTarget` — accounts survive that keywords are laid over a target.
* `Json.Accounted.restoreMarkers` — an account of the value with its markers turned back.
-/

namespace RpcSchema

/-- The pointer at the end of a list of steps below a pointer. -/
def Pointer.below : String → List Step → String
  | pointer, [] => pointer
  | pointer, .member name :: steps => below (child pointer name) steps
  | pointer, .item index :: steps => below (item pointer index) steps

/-- Whether a step leads to a part that holds schemas, not data. -/
def Step.isOpen : Step → Bool
  | .member name => !isOpaqueKeyword name
  | .item _ => true

/-- A value holds a reference that is reached through schemas only. -/
def Json.HoldsReference (value : Json) (reference : String) : Prop :=
  ∃ steps fields, (∀ step ∈ steps, step.isOpen = true) ∧
    value.at? steps = some (.object fields) ∧ referenceOf? fields = some reference

/-- The reference and the marker among members, if there are any, have a reason: the
reference by `made`, and the canonical reference of the marker by `marked`. -/
structure AccountsFor (made marked : String → Prop) (fields : Fields Json) : Prop where
  made : ∀ reference, referenceOf? fields = some reference → made reference
  marked : ∀ marker, Fields.get? fields markerKeyword = some marker →
    ∃ key, marker = .string key ∧ marked key

/-- All references and markers that open steps lead to have a reason, depending on the
steps. -/
def Json.Accounted (made marked : List Step → String → Prop) (value : Json) : Prop :=
  ∀ steps fields, (∀ step ∈ steps, step.isOpen = true) →
    value.at? steps = some (.object fields) → AccountsFor (made steps) (marked steps) fields

/-- A reason for either side is a reason for what takes its reference and its marker from
one of the sides. -/
theorem AccountsFor.of_either {made marked : String → Prop} {fields mine theirs : Fields Json}
    (hmine : AccountsFor made marked mine) (htheirs : AccountsFor made marked theirs)
    (h : ∀ name, name = "$ref" ∨ name = markerKeyword →
      Fields.get? fields name = Fields.get? mine name ∨
        Fields.get? fields name = Fields.get? theirs name) :
    AccountsFor made marked fields where
  made := by
    intro reference hmade
    unfold referenceOf? at hmade
    rcases h "$ref" (Or.inl rfl) with heq | heq
    · rw [heq] at hmade
      exact hmine.made reference hmade
    · rw [heq] at hmade
      exact htheirs.made reference hmade
  marked := by
    intro marker hmarker
    rcases h markerKeyword (Or.inr rfl) with heq | heq
    · rw [heq] at hmarker
      exact hmine.marked marker hmarker
    · rw [heq] at hmarker
      exact htheirs.marked marker hmarker

namespace Json

variable {made marked : List Step → String → Prop} {fields : Fields Json} {items : List Json}
  {value : Json}

theorem Accounted.mono {made' marked' : List Step → String → Prop}
    (h : value.Accounted made marked) (hmade : ∀ steps key, made steps key → made' steps key)
    (hmarked : ∀ steps key, marked steps key → marked' steps key) :
    value.Accounted made' marked' := by
  intro steps fields hopen hat
  have hfields := h steps fields hopen hat
  refine ⟨fun reference href => hmade _ _ (hfields.made reference href), fun marker hmarker => ?_⟩
  obtain ⟨key, hkey, hmark⟩ := hfields.marked marker hmarker
  exact ⟨key, hkey, hmarked _ _ hmark⟩

/-- A value that is neither an object nor an array holds nothing to account for. -/
theorem accounted_scalar (hobject : value.object? = none) (harray : value.array? = none) :
    value.Accounted made marked := by
  intro steps fields _ hat
  cases steps with
  | nil =>
    rw [at?, Option.some.injEq] at hat
    rw [hat] at hobject
    cases hobject
  | cons step steps =>
    obtain ⟨part, hchild, -⟩ := Option.bind_eq_some_iff.mp hat
    cases hasPart_of_child? hchild with
    | member => cases hobject
    | item => cases harray

/-- An object is accounted for when it is itself, and its members that hold schemas are. -/
theorem accounted_object_iff :
    (object fields).Accounted made marked ↔
      AccountsFor (made []) (marked []) fields ∧
        ∀ name part, isOpaqueKeyword name = false → Fields.get? fields name = some part →
          part.Accounted (fun steps => made (.member name :: steps))
            (fun steps => marked (.member name :: steps)) := by
  constructor
  · intro h
    refine ⟨h [] fields (List.forall_mem_nil _) rfl, ?_⟩
    intro name part hname hpart steps inner hopen hat
    refine h (.member name :: steps) inner ?_ ?_
    · exact List.forall_mem_cons.mpr ⟨by simp [Step.isOpen, hname], hopen⟩
    · rw [at?, child?, hpart]
      exact hat
  · rintro ⟨hown, hparts⟩ steps inner hopen hat
    cases steps with
    | nil =>
      rw [at?, Option.some.injEq, object.injEq] at hat
      exact hat ▸ hown
    | cons step steps =>
      obtain ⟨hstep, hrest⟩ := List.forall_mem_cons.mp hopen
      obtain ⟨part, hchild, hbelow⟩ := Option.bind_eq_some_iff.mp hat
      cases step with
      | item index => cases hchild
      | member name =>
        have hname : isOpaqueKeyword name = false := by simpa [Step.isOpen] using hstep
        exact hparts name part hname hchild steps inner hrest hbelow

/-- An array is accounted for when its items are. -/
theorem accounted_array_iff :
    (array items).Accounted made marked ↔
      ∀ (index : Nat) (part : Json), items[index]? = some part →
        part.Accounted (fun steps => made (.item index :: steps))
          (fun steps => marked (.item index :: steps)) := by
  constructor
  · intro h index part hpart steps inner hopen hat
    refine h (.item index :: steps) inner ?_ ?_
    · exact List.forall_mem_cons.mpr ⟨rfl, hopen⟩
    · rw [at?, child?, hpart]
      exact hat
  · intro hparts steps inner hopen hat
    cases steps with
    | nil => cases hat
    | cons step steps =>
      obtain ⟨part, hchild, hbelow⟩ := Option.bind_eq_some_iff.mp hat
      cases step with
      | member name => cases hchild
      | item index =>
        exact hparts index part hchild steps inner (List.forall_mem_cons.mp hopen).2 hbelow

/-! ### Laying keywords over a target -/

/-- Where properties are put together, both sides keep their positions. -/
private theorem Accounted.foldl_set {mine theirs : Fields Json} (hnames : (Fields.keys mine).Nodup)
    (hmine : (object mine).Accounted made marked)
    (htheirs : (object theirs).Accounted made marked) :
    (object (mine.foldl (fun merged entry => Fields.set merged entry.1 entry.2)
      theirs)).Accounted made marked := by
  rw [accounted_object_iff] at hmine htheirs ⊢
  have heither : ∀ name, Fields.get? (mine.foldl (fun merged entry =>
      Fields.set merged entry.1 entry.2) theirs) name = Fields.get? mine name ∨
      Fields.get? (mine.foldl (fun merged entry =>
        Fields.set merged entry.1 entry.2) theirs) name = Fields.get? theirs name := by
    intro name
    rw [Fields.get?_foldl_set hnames]
    cases Fields.get? mine name with
    | none => exact Or.inr rfl
    | some part => exact Or.inl rfl
  refine ⟨hmine.1.of_either htheirs.1 fun name _ => heither name, ?_⟩
  intro name part hname hpart
  rcases heither name with heq | heq
  · rw [heq] at hpart
    exact hmine.2 name part hname hpart
  · rw [heq] at hpart
    exact htheirs.2 name part hname hpart

/-- In a list with new members of another, those of the first keep their positions. -/
private theorem getElem?_unionOf {left right : List Json} {index : Nat} {part : Json}
    (h : (unionOf left right)[index]? = some part) : left[index]? = some part ∨ part ∈ right := by
  induction right generalizing left with
  | nil => exact Or.inl h
  | cons value right ih =>
    rw [unionOf_cons] at h
    rcases ih h with hleft | hmem
    · unfold appendNew at hleft
      split at hleft
      · exact Or.inl hleft
      · rw [List.getElem?_append] at hleft
        split at hleft
        · exact Or.inl hleft
        · have hmem := List.mem_of_getElem? hleft
          exact Or.inr (List.mem_cons.mpr (Or.inl (List.mem_singleton.mp hmem)))
    · exact Or.inr (List.mem_cons_of_mem _ hmem)

private theorem accounted_of_isString (h : value.isString = true) :
    value.Accounted made marked := by
  cases value with
  | string s => exact accounted_scalar rfl rfl
  | _ => cases h

private theorem Accounted.overlayKeyword {keyword : String} {beside target : Json}
    (hnames : beside.DistinctNames) (hbeside : beside.Accounted made marked)
    (htarget : target.Accounted made marked)
    (hrequired : keyword = "required" → ∀ items, beside = .array items →
      ∀ item ∈ items, ∀ index : Nat, item.Accounted (fun steps => made (.item index :: steps))
        (fun steps => marked (.item index :: steps))) :
    (overlayKeyword keyword beside target).Accounted made marked := by
  unfold RpcSchema.overlayKeyword
  split
  · exact hbeside.foldl_set (everyObject_object_iff.mp hnames).1 htarget
  · rw [accounted_array_iff] at htarget ⊢
    intro index part hpart
    rcases getElem?_unionOf hpart with hleft | hmem
    · exact htarget index part hleft
    · exact hrequired rfl _ rfl part hmem index
  · exact hbeside

/-- Accounts survive that keywords are laid over a target, if those of the items in the list
of required names beside the reference do not depend on where the items stand. -/
theorem Accounted.overlayTarget_of_items {beside : Fields Json} {target : Json}
    (hbesideNames : (object beside).DistinctNames) (htargetNames : target.DistinctNames)
    (hbeside : (object beside).Accounted made marked) (htarget : target.Accounted made marked)
    (hrequired : ∀ items, Fields.get? beside "required" = some (.array items) →
      ∀ item ∈ items, ∀ index : Nat,
        item.Accounted (fun steps => made (.member "required" :: .item index :: steps))
          (fun steps => marked (.member "required" :: .item index :: steps))) :
    (overlayTarget beside target).Accounted made marked := by
  unfold RpcSchema.overlayTarget
  split
  · next fields =>
    have hget := @get?_overlay beside fields (everyObject_object_iff.mp htargetNames).1
    have hparts := (everyObject_object_iff.mp hbesideNames).2
    rw [accounted_object_iff] at hbeside htarget ⊢
    refine ⟨hbeside.1.of_either htarget.1 fun name hname => ?_, fun name part hname hpart => ?_⟩
    · -- Neither keyword is put together from both sides.
      have hkeyword : ∀ mine theirs, RpcSchema.overlayKeyword name mine theirs = mine := by
        rcases hname with rfl | rfl <;> intro mine theirs <;> rfl
      rw [hget]
      cases hmine : Fields.get? beside name with
      | none => exact Or.inr rfl
      | some mine =>
        refine Or.inl ?_
        cases Fields.get? fields name with
        | none => rfl
        | some theirs => exact congrArg some (hkeyword mine theirs)
    · rw [hget] at hpart
      cases hmine : Fields.get? beside name with
      | none =>
        rw [hmine] at hpart
        exact htarget.2 name part hname hpart
      | some mine =>
        have hown := hbeside.2 name mine hname hmine
        cases htheirs : Fields.get? fields name with
        | none =>
          rw [hmine, htheirs] at hpart
          exact Option.some.inj hpart ▸ hown
        | some theirs =>
          rw [hmine, htheirs] at hpart
          rw [← Option.some.inj hpart]
          refine hown.overlayKeyword (hparts _ _ (Fields.mem_of_get? hmine))
            (htarget.2 name theirs hname htheirs) ?_
          rintro rfl items rfl
          exact hrequired items hmine
  · split
    · exact htarget
    · exact hbeside

/-- **Accounts survive that keywords are laid over a target**, if the list of required
names beside the reference holds nothing but names. -/
theorem Accounted.overlayTarget {beside : Fields Json} {target : Json}
    (hbesideNames : (object beside).DistinctNames) (htargetNames : target.DistinctNames)
    (hbeside : (object beside).Accounted made marked) (htarget : target.Accounted made marked)
    (hrequired : ∀ items, Fields.get? beside "required" = some (.array items) →
      ∀ item ∈ items, item.isString = true) :
    (overlayTarget beside target).Accounted made marked :=
  hbeside.overlayTarget_of_items hbesideNames htargetNames htarget
    fun items hitems item hmem _ => accounted_of_isString (hrequired items hitems item hmem)

/-- Reasons that do not depend on positions survive in any case. -/
theorem Accounted.overlayTarget_of_const {made marked : String → Prop} {beside : Fields Json}
    {target : Json} (hbesideNames : (object beside).DistinctNames)
    (htargetNames : target.DistinctNames)
    (hbeside : (object beside).Accounted (fun _ => made) (fun _ => marked))
    (htarget : target.Accounted (fun _ => made) (fun _ => marked)) :
    (RpcSchema.overlayTarget beside target).Accounted (fun _ => made) (fun _ => marked) := by
  refine hbeside.overlayTarget_of_items hbesideNames htargetNames htarget ?_
  intro items hitems item hmem _
  have hlist := (accounted_object_iff.mp hbeside).2 "required" _ (by decide) hitems
  obtain ⟨index, hindex⟩ := List.mem_iff_getElem?.mp hmem
  exact accounted_array_iff.mp hlist index item hindex

/-! ### Turning markers back -/

private theorem reason_of_restoreMarker {made marked : String → Prop} {fields : Fields Json}
    (hnames : (Fields.keys fields).Nodup) (h : AccountsFor made marked fields)
    {reference : String}
    (href : referenceOf? (restoreMarker (restoreMarkersFields fields)) = some reference) :
    made reference ∨ marked reference := by
  rw [referenceOf?_eq_some_iff, get?_restoreMarker (by rwa [keys_restoreMarkersFields]), if_pos rfl,
    get?_restoreMarkersFields, get?_restoreMarkersFields] at href
  cases hmarker : Fields.get? fields markerKeyword with
  | some marker =>
    obtain ⟨key, rfl, hkey⟩ := h.marked marker hmarker
    rw [hmarker] at href
    exact Or.inr (Json.string.inj (Option.some.inj href) ▸ hkey)
  | none =>
    refine Or.inl (h.made reference (referenceOf?_eq_some_iff.mpr ?_))
    rw [hmarker, Option.map_none, Option.none_or] at href
    obtain ⟨value, hvalue, hstring⟩ := Option.map_eq_some_iff.mp href
    cases value with
    | string text => exact hvalue.trans (congrArg some hstring)
    | _ => cases hstring

/-- **Every reference in a value with its markers turned back was a reference or a marker
before**, at the same position. -/
theorem Accounted.restoreMarkers {steps : List Step} {reference : String}
    (hnames : value.DistinctNames) (h : value.Accounted made marked)
    (hopen : ∀ step ∈ steps, step.isOpen = true)
    (hat : value.restoreMarkers.at? steps = some (.object fields))
    (href : referenceOf? fields = some reference) :
    made steps reference ∨ marked steps reference := by
  -- Turning markers back changes `$ref` only, into which no open step leads.
  induction steps generalizing value made marked with
  | nil =>
    cases value with
    | object inner =>
      rw [Json.restoreMarkers, at?, Option.some.injEq, object.injEq] at hat
      subst hat
      exact reason_of_restoreMarker (everyObject_object_iff.mp hnames).1
        (accounted_object_iff.mp h).1 href
    | _ => cases hat
  | cons step steps ih =>
    obtain ⟨hstep, hrest⟩ := List.forall_mem_cons.mp hopen
    obtain ⟨part, hchild, hlast⟩ := Option.bind_eq_some_iff.mp hat
    cases value with
    | object inner =>
      obtain ⟨hown, hparts⟩ := everyObject_object_iff.mp hnames
      cases step with
      | item index => cases hchild
      | member name =>
        have hname : isOpaqueKeyword name = false := by simpa [Step.isOpen] using hstep
        have hne : name ≠ "$ref" := by
          rintro rfl
          cases hname
        rw [Json.restoreMarkers, child?,
          get?_restoreMarker (by rwa [keys_restoreMarkersFields]), if_neg hne,
          get?_restoreMarkersFields] at hchild
        split at hchild
        · cases hchild
        · obtain ⟨below, hbelow, rfl⟩ := Option.map_eq_some_iff.mp hchild
          exact ih (hparts name below (Fields.mem_of_get? hbelow))
            ((accounted_object_iff.mp h).2 name below hname hbelow) hrest hlast
    | array items =>
      cases step with
      | member name => cases hchild
      | item index =>
        rw [Json.restoreMarkers, child?, restoreMarkersItems_eq, List.getElem?_map] at hchild
        obtain ⟨below, hbelow, rfl⟩ := Option.map_eq_some_iff.mp hchild
        exact ih (everyObject_array_iff.mp hnames below (List.mem_of_getElem? hbelow))
          (accounted_array_iff.mp h index below hbelow) hrest hlast
    | _ => cases hchild

end Json

/-- Marking an object without a reference adds a marker, which needs a reason. -/
theorem accounted_mark {made marked : List Step → String → Prop} {beside : Fields Json}
    {key : String} (h : (Json.object beside).Accounted made marked)
    (hmarked : marked [] key) :
    (Json.object (Fields.set beside markerKeyword (.string key))).Accounted made marked := by
  obtain ⟨hown, hparts⟩ := Json.accounted_object_iff.mp h
  refine Json.accounted_object_iff.mpr ⟨⟨?_, ?_⟩, ?_⟩
  · intro reference href
    rw [referenceOf?, Fields.get?_set_of_ne _ _ markerKeyword_ne.symm] at href
    exact hown.made reference href
  · intro marker hget
    rw [Fields.get?_set_self, Option.some.injEq] at hget
    exact ⟨key, hget.symm, hmarked⟩
  · intro name part hname hget
    by_cases hmarker : name = markerKeyword
    · subst hmarker
      rw [Fields.get?_set_self, Option.some.injEq] at hget
      exact hget ▸ Json.accounted_scalar rfl rfl
    · rw [Fields.get?_set_of_ne _ _ hmarker] at hget
      exact hparts name part hname hget

end RpcSchema
