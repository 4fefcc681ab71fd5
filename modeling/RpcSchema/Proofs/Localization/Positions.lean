import RpcSchema.Proofs.Dereference.Accounts
import RpcSchema.Proofs.Json.Pointer
import RpcSchema.Proofs.Localization.Redirection

/-!
# What stands where in a localized value

Turning references moves nothing.  A position is there after it just when it was there
before.  Where the steps lead through schemas the part is turned on its own; a reference
that is turned is a text in the place of a text; and all else is data that stays as it is.

So a value and what it is turned into look alike from each position, and a pointer that
passes through no reference leads down both by the same steps.

## Main definitions

* `Json.Outline`, `Json.outline` — what a value looks like from outside.
* `Store.Becomes` — what becomes of the part at a position.
* `Json.Resembles` — two values look alike wherever no step is to a reference.

## Main results

* `Store.at?_localized` — what stands at a position afterwards.
* `Store.exists_at?_of_localized` — nothing stands where nothing stood.
* `Json.Resembles.descend?` — pointers lead down both values.
-/

namespace RpcSchema

open Relation

namespace Json

/-! ### Outlines -/

/-- What a value looks like from outside. -/
inductive Outline
  | scalar (value : Json)
  | array (length : Nat)
  | object (names : List String)
  deriving DecidableEq

/-- The outline of a value: the names of its members or the number of its items. -/
def outline : Json → Outline
  | .object fields => .object (Fields.keys fields)
  | .array items => .array items.length
  | value => .scalar value

/-- Two values are both objects, or both arrays, or both neither. -/
def SameKind (value value' : Json) : Prop :=
  value.isObject = value'.isObject ∧ value.array?.isSome = value'.array?.isSome

theorem sameKind_of_outline_eq {value value' : Json} (h : value'.outline = value.outline) :
    value.SameKind value' := by
  cases value <;> cases value' <;> first | exact ⟨rfl, rfl⟩ | cases h

/-- A segment takes the same step in values of one kind. -/
theorem SameKind.step?_eq {value value' : Json} (h : value.SameKind value') (segment : String) :
    value'.step? segment = value.step? segment := by
  obtain ⟨hobject, harray⟩ := h
  cases value with
  | object fields =>
    cases value' with
    | object fields' => rw [step?, step?]
    | _ => cases hobject
  | array items =>
    cases value' with
    | array items' => rw [step?, step?]
    | _ => cases harray
  | _ =>
    cases value' with
    | object fields' => cases hobject
    | array items' => cases harray
    | _ => rfl

/-! ### Pointers down values that look alike -/

/-- Wherever no step is to a reference, a part of `value` has one of its kind in `value'`. -/
def Resembles (value value' : Json) : Prop :=
  ∀ steps part, (∀ step ∈ steps, step ≠ .member "$ref") → value.at? steps = some part →
    ∃ part', value'.at? steps = some part' ∧ part.SameKind part'

/-- The step that a segment takes is to a reference only when the segment names it. -/
theorem step?_ne_reference {value : Json} {segment : String} {step : Step}
    (h : value.step? segment = some step) (hne : Pointer.unescape segment ≠ "$ref") :
    step ≠ .member "$ref" := by
  rintro rfl
  cases value with
  | object fields =>
    rw [step?, Option.some.injEq, Step.member.injEq] at h
    exact hne h
  | array items =>
    rw [step?] at h
    obtain ⟨index, -, hstep⟩ := Option.map_eq_some_iff.mp h
    cases hstep
  | _ => cases h

/-- **Pointers lead down both values**, if they pass through no reference. -/
theorem Resembles.descend? {segments : List String} {value value' part : Json}
    {steps : List Step} (h : value.Resembles value')
    (hsegments : ∀ segment ∈ segments, Pointer.unescape segment ≠ "$ref")
    (hfound : value.descend? segments = some (steps, part)) :
    ∃ part', value'.descend? segments = some (steps, part') := by
  induction segments generalizing value value' steps with
  | nil =>
    rw [Json.descend?, Option.some.injEq, Prod.mk.injEq] at hfound
    obtain ⟨rfl, -⟩ := hfound
    exact ⟨value', rfl⟩
  | cons segment rest ih =>
    obtain ⟨hsegment, hrest⟩ := List.forall_mem_cons.mp hsegments
    simp only [Json.descend?, Option.bind_eq_some_iff, Option.map_eq_some_iff,
      Prod.mk.injEq] at hfound
    obtain ⟨step, hstep, below, hbelow, found, hfound, rfl, rfl⟩ := hfound
    have hne := step?_ne_reference hstep hsegment
    obtain ⟨self, hself, hkind⟩ := h [] value (by simp) rfl
    obtain rfl := Option.some.inj hself
    obtain ⟨below', hbelow', -⟩ := h [step] below (by simpa using hne) (by
      rw [at?, hbelow]
      rfl)
    have hchild : value'.child? step = some below' := by
      rw [at?] at hbelow'
      obtain ⟨child, hchild, hlast⟩ := Option.bind_eq_some_iff.mp hbelow'
      rw [hchild, Option.some.inj hlast]
    -- What lies below resembles what lies below.
    have hresembles : below.Resembles below' := by
      intro steps part hsteps hat
      obtain ⟨part', hat', hpart⟩ := h (step :: steps) part
        (List.forall_mem_cons.mpr ⟨hne, hsteps⟩) (by
          rw [at?, hbelow]
          exact hat)
      rw [at?, hchild] at hat'
      exact ⟨part', hat', hpart⟩
    obtain ⟨part', hpart'⟩ := ih hresembles hrest hfound
    refine ⟨part', ?_⟩
    simp [Json.descend?, hkind.step?_eq, hstep, hchild, hpart']

end Json

/-- Open steps lead to parts that hold schemas. -/
theorem Site.hasPart_of_at? (source : Source) {steps : List Step} {value part : Json}
    (hopen : ∀ step ∈ steps, step.isOpen = true) (h : value.at? steps = some part) :
    ReflTransGen Site.HasPart ⟨source, value⟩ ⟨source, part⟩ := by
  induction steps generalizing value with
  | nil =>
    obtain rfl := Option.some.inj h
    exact .refl
  | cons step steps ih =>
    obtain ⟨hstep, hrest⟩ := List.forall_mem_cons.mp hopen
    rw [Json.at?] at h
    obtain ⟨below, hchild, hbelow⟩ := Option.bind_eq_some_iff.mp h
    refine (ih hrest hbelow).head ?_
    cases value with
    | object fields =>
      cases step with
      | item index => cases hchild
      | member name =>
        exact List.mem_map.mpr
          ⟨(name, below), List.mem_filter.mpr ⟨Fields.mem_of_get? hchild, hstep⟩, rfl⟩
    | array items =>
      cases step with
      | member name => cases hchild
      | item index => exact List.mem_map.mpr ⟨below, List.mem_of_getElem? hchild, rfl⟩
    | _ => cases step <;> cases hchild

/-! ### Turned values -/

section Turned

variable {store : Store} {home : Origin} {source : Source} {value part : Json} {step : Step}

theorem Store.outline_localized (value : Json) :
    (store.localized home source value).outline = value.outline := by
  cases value with
  | object fields => rw [Store.localized, Json.outline, Json.outline, Store.keys_redirect]
  | array items =>
    rw [Store.localized, Json.outline, Json.outline, Store.localizedItems_eq, List.length_map]
  | _ => rfl

/-- Open steps lead to parts that are turned on their own. -/
theorem Store.child?_localized_of_open (h : step.isOpen = true) :
    (store.localized home source value).child? step
      = (value.child? step).map (store.localized home source) := by
  cases value with
  | object fields =>
    cases step with
    | item index => rfl
    | member name =>
      have hname : isOpaqueKeyword name = false := by simpa [Step.isOpen] using h
      have hne : name ≠ "$ref" := by
        rintro rfl
        cases hname
      rw [Store.localized, Json.child?, Store.get?_redirect_of_ne _ _ hne,
        Store.get?_localizedMembers, hname]
      rfl
  | array items =>
    cases step with
    | member name => rfl
    | item index =>
      rw [Store.localized, Json.child?, Store.localizedItems_eq, List.getElem?_map]
      rfl
  | _ => cases step <;> rfl

/-- Data stays as it is. -/
theorem Store.child?_localized_of_data (h : step.isOpen = false) (hne : step ≠ .member "$ref") :
    (store.localized home source value).child? step = value.child? step := by
  cases step with
  | item index => cases h
  | member name =>
    have hname : isOpaqueKeyword name = true := by simpa [Step.isOpen] using h
    have hname' : name ≠ "$ref" := fun heq => hne (congrArg Step.member heq)
    cases value with
    | object fields =>
      rw [Store.localized, Json.child?, Json.child?, Store.get?_redirect_of_ne _ _ hname',
        Store.get?_localizedMembers, hname]
      simp
    | _ => rfl

/-- A reference that is not turned stays as it is. -/
theorem Store.child?_localized_of_kept {fields : Fields Json}
    (h : store.redirection? home source fields = none) :
    (store.localized home source (.object fields)).child? (.member "$ref")
      = Fields.get? fields "$ref" := by
  have hopaque : isOpaqueKeyword "$ref" = true := by decide
  rw [Store.localized, h, Store.redirect, Json.child?, Store.get?_localizedMembers, hopaque]
  simp

/-- A reference that is turned becomes another one. -/
theorem Store.child?_localized_of_redirected {fields : Fields Json} {name : String}
    (h : store.redirection? home source fields = some name) :
    (store.localized home source (.object fields)).child? (.member "$ref")
      = some (.string (Reference.toComponent name)) := by
  rw [Store.localized, h, Store.redirect, Json.child?, Fields.get?_set_self]

/-- What becomes of the part at the end of some steps down a value. -/
inductive Store.Becomes (store : Store) (home : Origin) (source : Source) (value : Json) :
    List Step → Json → Json → Prop
  /-- It holds a schema, and is turned on its own. -/
  | turned {steps : List Step} {part : Json} (hopen : ∀ step ∈ steps, step.isOpen = true) :
      Becomes store home source value steps part (store.localized home source part)
  /-- It is a reference into a bundle, and gives way to a local one. -/
  | redirected {steps : List Step} {fields : Fields Json} {reference name : String}
      {target : Target} (hopen : ∀ step ∈ steps, step.isOpen = true)
      (hat : value.at? steps = some (.object fields))
      (hredirects : Site.Redirects store home ⟨source, .object fields⟩ name target) :
      Becomes store home source value (steps ++ [.member "$ref"]) (.string reference)
        (.string (Reference.toComponent name))
  /-- It is none of the two, and stays as it is. -/
  | kept {steps : List Step} {part : Json} : Becomes store home source value steps part part

/-- What becomes of a part below an open step, becomes of it in the whole. -/
theorem Store.Becomes.below {below part' : Json} {steps : List Step} (hstep : step.isOpen = true)
    (hchild : value.child? step = some below)
    (h : store.Becomes home source below steps part part') :
    store.Becomes home source value (step :: steps) part part' := by
  cases h with
  | turned hopen => exact .turned (List.forall_mem_cons.mpr ⟨hstep, hopen⟩)
  | redirected hopen hat hredirects =>
    refine .redirected (List.forall_mem_cons.mpr ⟨hstep, hopen⟩) ?_ hredirects
    rw [Json.at?, hchild]
    exact hat
  | kept => exact .kept

/-- **What stands at a position afterwards.** -/
theorem Store.at?_localized (source : Source) {steps : List Step}
    (h : value.at? steps = some part) :
    ∃ part', (store.localized home source value).at? steps = some part' ∧
      store.Becomes home source value steps part part' := by
  induction steps generalizing value with
  | nil =>
    obtain rfl := Option.some.inj h
    exact ⟨_, rfl, .turned (by simp)⟩
  | cons step steps ih =>
    rw [Json.at?] at h
    obtain ⟨below, hchild, hbelow⟩ := Option.bind_eq_some_iff.mp h
    rw [Json.at?]
    by_cases hopen : step.isOpen = true
    · obtain ⟨part', hpart', hbecomes⟩ := ih hbelow
      refine ⟨part', ?_, hbecomes.below hopen hchild⟩
      rw [Store.child?_localized_of_open hopen, hchild]
      exact hpart'
    · have hclosed : step.isOpen = false := by simpa using hopen
      by_cases href : step = .member "$ref"
      · obtain rfl := href
        cases value with
        | object fields =>
          cases hname : store.redirection? home source fields with
          | none =>
            rw [Store.child?_localized_of_kept hname]
            exact ⟨part, h, .kept⟩
          | some name =>
            rw [Store.child?_localized_of_redirected hname]
            -- What is turned is a text, below which there is nothing.
            obtain ⟨target, hredirects⟩ := Store.redirection?_eq_some_iff.mp hname
            obtain ⟨reference, hmade⟩ := hredirects.exists_made?
            have htext : Fields.get? fields "$ref" = some (.string reference) :=
              referenceOf?_eq_some_iff.mp hmade
            obtain rfl := Option.some.inj (hchild.symm.trans htext)
            obtain ⟨rfl, rfl⟩ := Json.at?_string hbelow
            exact ⟨_, rfl, Store.Becomes.redirected (List.forall_mem_nil _) rfl hredirects⟩
        | _ => cases hchild
      · rw [Store.child?_localized_of_data hclosed href]
        exact ⟨part, h, .kept⟩

/-- **Nothing stands where nothing stood.** -/
theorem Store.exists_at?_of_localized {steps : List Step} {part' : Json}
    (h : (store.localized home source value).at? steps = some part') :
    ∃ part, value.at? steps = some part := by
  -- Only through open steps the part is turned in its turn.
  induction steps generalizing value with
  | nil => exact ⟨value, rfl⟩
  | cons step steps ih =>
    rw [Json.at?] at h
    obtain ⟨below', hchild', hbelow'⟩ := Option.bind_eq_some_iff.mp h
    by_cases hopen : step.isOpen = true
    · rw [Store.child?_localized_of_open hopen] at hchild'
      obtain ⟨below, hchild, rfl⟩ := Option.map_eq_some_iff.mp hchild'
      obtain ⟨part, hpart⟩ := ih hbelow'
      refine ⟨part, ?_⟩
      rw [Json.at?, hchild]
      exact hpart
    · have hclosed : step.isOpen = false := by simpa using hopen
      by_cases href : step = .member "$ref"
      · obtain rfl := href
        cases value with
        | object fields =>
          cases hname : store.redirection? home source fields with
          | none =>
            rw [Store.child?_localized_of_kept hname] at hchild'
            refine ⟨part', ?_⟩
            rw [Json.at?, Json.child?, hchild']
            exact hbelow'
          | some name =>
            -- A local reference stands where a reference stood, and has no parts.
            rw [Store.child?_localized_of_redirected hname] at hchild'
            obtain rfl := Option.some.inj hchild'
            obtain ⟨rfl, -⟩ := Json.at?_string hbelow'
            obtain ⟨value, hvalue⟩ := Fields.mem_keys.mp (Store.mem_keys_of_redirection? hname)
            cases hget : Fields.get? fields "$ref" with
            | none => exact absurd (Fields.mem_keys_of_mem hvalue) (Fields.get?_eq_none_iff.mp hget)
            | some part => exact ⟨part, by rw [Json.at?_member_nil, hget]⟩
        | _ => cases hchild'
      · rw [Store.child?_localized_of_data hclosed href] at hchild'
        refine ⟨part', ?_⟩
        rw [Json.at?, hchild']
        exact hbelow'

/-- Where all steps are open the part is turned on its own. -/
theorem Store.at?_localized_of_open {steps : List Step} (hopen : ∀ step ∈ steps, step.isOpen = true)
    (value : Json) : (store.localized home source value).at? steps
      = (value.at? steps).map (store.localized home source) := by
  induction steps generalizing value with
  | nil => rfl
  | cons step steps ih =>
    obtain ⟨hstep, hrest⟩ := List.forall_mem_cons.mp hopen
    rw [Json.at?, Json.at?, Store.child?_localized_of_open hstep]
    cases value.child? step with
    | none => rfl
    | some below => exact ih hrest below

end Turned

/-! ### Values without markers -/

section Lacks

variable {store : Store} {home : Origin} {source : Source} {key : String}

mutual

/-- Turning references brings in no names. -/
theorem Store.lacks_localized : ∀ {value : Json}, value.Lacks key →
    (store.localized home source value).Lacks key
  | .null, h => h
  | .bool _, h => h
  | .number _, h => h
  | .string _, h => h
  | .array items, h => by
    rw [Store.localized, Json.Lacks, Json.everyObject_array_iff]
    exact Store.lacks_localizedItems (Json.everyObject_array_iff.mp h)
  | .object fields, h => by
    obtain ⟨hown, hparts⟩ := Json.everyObject_object_iff.mp h
    have hmembers : ∀ name part, (name, part) ∈ store.localizedMembers home source fields →
        part.Lacks key := Store.lacks_localizedMembers hparts
    rw [Store.localized, Json.Lacks, Json.everyObject_object_iff, Store.keys_redirect]
    refine ⟨hown, fun name part hmem => ?_⟩
    cases hname : store.redirection? home source fields with
    | none =>
      rw [hname] at hmem
      exact hmembers name part hmem
    | some other =>
      rw [hname] at hmem
      rcases Fields.mem_set hmem with heq | hmem
      · rw [(Prod.mk.inj heq).2]
        exact Json.everyObject_scalar rfl rfl
      · exact hmembers name part hmem

theorem Store.lacks_localizedMembers : ∀ {fields : Fields Json},
    (∀ name part, (name, part) ∈ fields → part.Lacks key) →
      ∀ name part, (name, part) ∈ store.localizedMembers home source fields → part.Lacks key
  | [], _, _, _, hmem => absurd hmem List.not_mem_nil
  | (other, value) :: rest, h, name, part, hmem => by
    rw [Store.localizedMembers] at hmem
    rcases List.mem_cons.mp hmem with heq | hmem
    · obtain ⟨-, rfl⟩ := Prod.mk.inj heq
      have hvalue := h other value (List.mem_cons_self ..)
      split
      · exact hvalue
      · exact Store.lacks_localized hvalue
    · exact Store.lacks_localizedMembers
        (fun key inner hinner => h key inner (List.mem_cons_of_mem _ hinner)) name part hmem

theorem Store.lacks_localizedItems : ∀ {items : List Json}, (∀ item ∈ items, item.Lacks key) →
    ∀ item ∈ store.localizedItems home source items, item.Lacks key
  | [], _, _, hmem => absurd hmem List.not_mem_nil
  | item :: rest, h, part, hmem => by
    rw [Store.localizedItems] at hmem
    rcases List.mem_cons.mp hmem with rfl | hmem
    · exact Store.lacks_localized (h item (List.mem_cons_self ..))
    · exact Store.lacks_localizedItems
        (fun other hother => h other (List.mem_cons_of_mem _ hother)) part hmem

end

/-- Without markers, only references are turned. -/
theorem Store.turned_eq_localized {value : Json} (h : value.Lacks markerKeyword) :
    store.turned home source value = store.localized home source value :=
  Json.restoreMarkers_of_lacks (Store.lacks_localized h)

end Lacks

end RpcSchema
