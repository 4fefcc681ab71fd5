import Mathlib.Logic.Relation
import RpcSchema.Proofs.Fields
import RpcSchema.Json.Pointer

/-!
# What holds of all objects in a value

A value is made of objects, one within the other.  Statements such as "no object has
this member" or "the members of every object have distinct names" speak of them all.

## Main definitions

* `Json.HasPart` — the members of an object and the items of an array.
* `Json.EveryObject p` — every object in a value has members that satisfy `p`.
* `Json.Lacks key` — no object in a value has a member of a name.
* `Json.DistinctNames` — the members of every object in a value have distinct names.

## Main results

* `Json.induction_hasPart` — induction from the parts of a value to the value.
* `Json.everyObject_object_iff`, `Json.everyObject_array_iff` — one level at a time.
* `Json.EveryObject.of_locate?` — what a pointer leads to is a part.
-/

namespace RpcSchema

open Relation

namespace Json

/-- `HasPart value part` says that `part` is a member or an item of `value`. -/
inductive HasPart : Json → Json → Prop
  | member {fields : Fields Json} {name : String} {part : Json} (h : (name, part) ∈ fields) :
      HasPart (.object fields) part
  | item {items : List Json} {part : Json} (h : part ∈ items) : HasPart (.array items) part

/-- Every object in a value, the value itself included, has members that satisfy `p`. -/
def EveryObject (p : Fields Json → Prop) (value : Json) : Prop :=
  ∀ fields, ReflTransGen HasPart value (.object fields) → p fields

/-- No object in a value has a member named `key`. -/
def Lacks (key : String) (value : Json) : Prop :=
  value.EveryObject fun fields => key ∉ Fields.keys fields

/-- The members of every object have distinct names. -/
def DistinctNames (value : Json) : Prop :=
  value.EveryObject fun fields => (Fields.keys fields).Nodup

variable {p : Fields Json → Prop} {value part : Json} {fields : Fields Json}
  {items : List Json} {key : String}

theorem sizeOf_lt_of_hasPart (h : HasPart value part) : sizeOf part < sizeOf value := by
  cases h with
  | member hmem =>
    have := List.sizeOf_lt_of_mem hmem
    simp only [Prod.mk.sizeOf_spec, object.sizeOf_spec] at this ⊢
    omega
  | item hmem =>
    have := List.sizeOf_lt_of_mem hmem
    simp only [array.sizeOf_spec]
    omega

/-- What passes from the parts of a value to the value holds of all values. -/
theorem induction_hasPart {motive : Json → Prop}
    (h : ∀ value, (∀ part, HasPart value part → motive part) → motive value) (value : Json) :
    motive value :=
  h value fun part _hpart => induction_hasPart h part
termination_by sizeOf value
decreasing_by exact sizeOf_lt_of_hasPart _hpart

theorem EveryObject.of_hasPart (h : value.EveryObject p) (hpart : HasPart value part) :
    part.EveryObject p :=
  fun fields hfields => h fields (hfields.head hpart)

theorem everyObject_object_iff :
    (Json.object fields).EveryObject p ↔
      p fields ∧ ∀ name part, (name, part) ∈ fields → part.EveryObject p := by
  constructor
  · intro h
    exact ⟨h fields .refl, fun name part hmem => h.of_hasPart (.member hmem)⟩
  · rintro ⟨hfields, hparts⟩ inner hinner
    rcases hinner.cases_head with heq | ⟨part, hpart, hinner⟩
    · exact Json.object.inj heq ▸ hfields
    · cases hpart with
      | member hmem => exact hparts _ _ hmem inner hinner

theorem everyObject_array_iff :
    (Json.array items).EveryObject p ↔ ∀ part ∈ items, part.EveryObject p := by
  constructor
  · intro h part hmem
    exact h.of_hasPart (.item hmem)
  · rintro hparts inner hinner
    rcases hinner.cases_head with heq | ⟨part, hpart, hinner⟩
    · cases heq
    · cases hpart with
      | item hmem => exact hparts _ hmem inner hinner

/-- A value that is neither an object nor an array holds no objects. -/
theorem everyObject_scalar (hobject : value.object? = none) (harray : value.array? = none) :
    value.EveryObject p := by
  intro inner hinner
  rcases hinner.cases_head with rfl | ⟨part, hpart, -⟩
  · simp at hobject
  · cases hpart with
    | member => simp at hobject
    | item => simp at harray

/-! ### Deciding by a list of all objects -/

mutual

/-- All objects in a value, the value itself included. -/
def objects : Json → List (Fields Json)
  | .object fields => fields :: objectsFields fields
  | .array items => objectsItems items
  | _ => []

/-- All objects in items. -/
def objectsItems : List Json → List (Fields Json)
  | [] => []
  | item :: rest => objects item ++ objectsItems rest

/-- All objects in members. -/
def objectsFields : List (String × Json) → List (Fields Json)
  | [] => []
  | (_, value) :: rest => objects value ++ objectsFields rest

end

private theorem everyObject_iff_nil (hobject : value.object? = none)
    (harray : value.array? = none) :
    value.EveryObject p ↔ ∀ fields ∈ ([] : List (Fields Json)), p fields :=
  ⟨fun _ _ hmem => absurd hmem List.not_mem_nil, fun _ => everyObject_scalar hobject harray⟩

mutual

/-- What holds of every object holds of all objects in the list. -/
theorem everyObject_iff_objects : ∀ {value : Json},
    value.EveryObject p ↔ ∀ fields ∈ value.objects, p fields
  | .null => everyObject_iff_nil rfl rfl
  | .bool _ => everyObject_iff_nil rfl rfl
  | .number _ => everyObject_iff_nil rfl rfl
  | .string _ => everyObject_iff_nil rfl rfl
  | .array items => by
    rw [everyObject_array_iff, objects, everyItem_iff_objects]
  | .object fields => by
    rw [everyObject_object_iff, objects, List.forall_mem_cons, everyMember_iff_objects]

theorem everyItem_iff_objects : ∀ {items : List Json},
    (∀ item ∈ items, item.EveryObject p) ↔ ∀ fields ∈ objectsItems items, p fields
  | [] => by simp [objectsItems]
  | item :: rest => by
    rw [List.forall_mem_cons, objectsItems, List.forall_mem_append, everyObject_iff_objects,
      everyItem_iff_objects]

theorem everyMember_iff_objects : ∀ {fields : Fields Json},
    (∀ name part, (name, part) ∈ fields → part.EveryObject p) ↔
      ∀ inner ∈ objectsFields fields, p inner
  | [] => by simp [objectsFields]
  | (name, value) :: rest => by
    rw [objectsFields, List.forall_mem_append, ← everyObject_iff_objects,
      ← everyMember_iff_objects]
    constructor
    · intro h
      exact ⟨h name value (List.mem_cons_self ..),
        fun other part hmem => h other part (List.mem_cons_of_mem _ hmem)⟩
    · rintro ⟨hvalue, hrest⟩ other part hmem
      rcases List.mem_cons.mp hmem with heq | hmem
      · exact (Prod.mk.inj heq).2 ▸ hvalue
      · exact hrest other part hmem

end

instance [DecidablePred p] : Decidable (value.EveryObject p) :=
  decidable_of_iff _ everyObject_iff_objects.symm

instance : Decidable (value.Lacks key) :=
  inferInstanceAs (Decidable (value.EveryObject fun fields => key ∉ Fields.keys fields))

instance : Decidable value.DistinctNames :=
  inferInstanceAs (Decidable (value.EveryObject fun fields => (Fields.keys fields).Nodup))

/-! ### What pointers lead to -/

theorem hasPart_of_child? {step : Step} (h : value.child? step = some part) :
    HasPart value part := by
  cases value with
  | object fields =>
    cases step with
    | item index => simp [child?] at h
    | member name => exact .member (Fields.mem_of_get? h)
  | array items =>
    cases step with
    | member name => simp [child?] at h
    | item index => exact .item (List.mem_of_getElem? h)
  | null => cases step <;> simp [child?] at h
  | bool b => cases step <;> simp [child?] at h
  | number n => cases step <;> simp [child?] at h
  | string s => cases step <;> simp [child?] at h

/-- Steps down a value lead to parts of parts of it. -/
theorem hasPart_of_at? :
    ∀ {steps : List Step} {value : Json}, value.at? steps = some part →
      ReflTransGen HasPart value part
  | [], value, hat => by
    rw [at?, Option.some.injEq] at hat
    exact hat ▸ .refl
  | step :: steps, value, hat => by
    obtain ⟨below, hchild, hat⟩ := Option.bind_eq_some_iff.mp hat
    exact (hasPart_of_at? hat).head (hasPart_of_child? hchild)

/-- What a pointer leads to is a part of a part. -/
theorem hasPart_of_locate? {fragment : String} {found : List Step × Json}
    (h : value.locate? fragment = some found) : ReflTransGen HasPart value found.2 :=
  hasPart_of_at? (at?_of_descend? h)

theorem EveryObject.of_locate? {fragment : String} {found : List Step × Json}
    (h : value.EveryObject p) (hfound : value.locate? fragment = some found) :
    found.2.EveryObject p :=
  fun fields hfields => h fields ((hasPart_of_locate? hfound).trans hfields)

end Json

end RpcSchema
