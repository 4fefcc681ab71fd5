import Mathlib.Data.List.Nodup
import Mathlib.Data.List.Infix
import RpcSchema.Proofs.Fields
import RpcSchema.Proofs.Schema.Equality
import RpcSchema.Registry

/-!
# What registries promise

Registering a schema tries one name after the other, and stops at the first that accepts the
schema.  It always stops: all names to try are different, and only names that have an entry or
are reserved can refuse a schema.

A registry only grows at its end.  So an entry stays for good, and a name that once refused a
schema refuses it for good: it has another entry, or it is reserved and never gets one.
Registering the schema again therefore tries the same names and stops at the same one, whatever
was registered in between.

## Main definitions

* `Registry.insertAll` — register schemas one after the other.
* `Registry.WellKept` — names are apart, none is reserved, and each entry has its name as title.
* `Registry.Extends` — a registry to which entries were added at the end.
* `Registry.Settles` — the name at which registering a schema stops.

## Main results

* `Registry.settles_slot` — registering stops, at the first name that accepts the schema.
* `Registry.WellKept.insert`, `Registry.extends_insert` — what one registration keeps.
* `Registry.Settles.of_extends` — a name that was found once is found ever after.
* `Registry.insert_permanent` — all of it for a sequence of registrations.
-/

namespace RpcSchema

namespace Registry

variable {registry registry' next : Registry} {name : String} {schema entry : Schema}

/-! ### The names to try -/

theorem candidate_succ (name : String) (index : Nat) :
    candidate name (index + 1) = name ++ toString (index + 2) := rfl

/-- A number can be read off from its digits. -/
private theorem toString_injective {m n : Nat} (h : toString m = toString n) : m = n := by
  have hdigits : Nat.toDigits 10 m = Nat.toDigits 10 n := by
    simpa only [Nat.toString_eq_repr, Nat.toList_repr] using congrArg String.toList h
  have hread := congrArg (fun digits => Nat.ofDigitChars 10 digits 0) hdigits
  simpa using hread

/-- **All names to try are different.** -/
theorem candidate_injective (name : String) : Function.Injective (candidate name) := by
  -- The wanted name is the only one without digits behind it.
  have hdigits : ∀ index, candidate name (index + 1) ≠ name := by
    intro index h
    have hlength := congrArg String.length h
    have hpos : 0 < (toString (index + 2)).length := Nat.length_repr_pos
    rw [candidate_succ, String.length_append] at hlength
    omega
  intro i j h
  cases i with
  | zero =>
    cases j with
    | zero => rfl
    | succ j => exact absurd h.symm (hdigits j)
  | succ i =>
    cases j with
    | zero => exact absurd h (hdigits i)
    | succ j =>
      rw [candidate_succ, candidate_succ] at h
      have hnumber := toString_injective ((String.append_right_inj name).mp h)
      omega

/-- The names to try are the wanted name and the name with a number from 2 up. -/
theorem candidate_form (name : String) (index : Nat) : candidate name index = name ∨
    ∃ number, 2 ≤ number ∧ candidate name index = name ++ toString number := by
  cases index with
  | zero => exact .inl rfl
  | succ index => exact .inr ⟨index + 2, by omega, rfl⟩

/-! ### Where registering stops -/

/-- A name refuses a schema when another schema has it, or when it is reserved and free. -/
theorem accepts_eq_false_iff : registry.accepts schema name = false ↔
    (∃ entry, registry.get? name = some entry ∧ (entry == schema.withTitle name) = false) ∨
      (registry.get? name = none ∧ name ∈ registry.reserved) := by
  unfold accepts
  cases registry.get? name with
  | none => simp
  | some entry => simp

/-- Registering the schema stops at the name with this index: it accepts the schema, and all
names before refuse it. -/
structure Settles (registry : Registry) (name : String) (schema : Schema) (index : Nat) : Prop where
  accepts : registry.accepts schema (candidate name index) = true
  refuses : ∀ earlier < index, registry.accepts schema (candidate name earlier) = false

/-- Not all names refuse a schema: there are more of them than names that can. -/
theorem exists_accepts (registry : Registry) (name : String) (schema : Schema) :
    ∃ index < registry.entries.length + registry.reserved.length + 1,
      registry.accepts schema (candidate name index) = true := by
  by_contra hrefused
  push Not at hrefused
  let tried := (List.range (registry.entries.length + registry.reserved.length + 1)).map
    (candidate name)
  have hnodup : tried.Nodup := List.nodup_range.map (candidate_injective name)
  have htaken : tried ⊆ Fields.keys registry.entries ++ registry.reserved := by
    intro other hother
    obtain ⟨index, hindex, rfl⟩ := List.mem_map.mp hother
    have hrefuses := Bool.eq_false_iff.mpr (hrefused index (List.mem_range.mp hindex))
    rw [List.mem_append]
    rcases accepts_eq_false_iff.mp hrefuses with ⟨entry, hentry, -⟩ | ⟨-, hreserved⟩
    · exact .inl (Fields.mem_keys_of_mem (Fields.mem_of_get? hentry))
    · exact .inr hreserved
  have hlength := hnodup.length_le_of_subset htaken
  simp only [tried, List.length_map, List.length_range, List.length_append, Fields.keys] at hlength
  omega

/-- **Registering stops**, at the first name that accepts the schema. -/
theorem settles_slot (registry : Registry) (name : String) (schema : Schema) :
    ∃ index, registry.slot name schema = candidate name index ∧
      registry.Settles name schema index := by
  obtain ⟨bound, hbound, haccepts⟩ := exists_accepts registry name schema
  have hfound : ((registry.candidates name).find? (registry.accepts schema)).isSome := by
    rw [List.find?_isSome]
    exact ⟨_, List.mem_map_of_mem (List.mem_range.mpr hbound), haccepts⟩
  obtain ⟨chosen, hchosen⟩ := Option.isSome_iff_exists.mp hfound
  have hslot : registry.slot name schema = chosen := by rw [slot, hchosen, Option.getD_some]
  rw [candidates, List.find?_map, Option.map_eq_some_iff] at hchosen
  obtain ⟨index, hindex, rfl⟩ := hchosen
  rw [List.find?_range_eq_some] at hindex
  obtain ⟨haccepts, -, hrefuses⟩ := hindex
  exact ⟨index, hslot, haccepts, fun earlier hearlier => by simpa using hrefuses earlier hearlier⟩

theorem accepts_slot (registry : Registry) (name : String) (schema : Schema) :
    registry.accepts schema (registry.slot name schema) = true := by
  obtain ⟨index, hslot, hsettles⟩ := settles_slot registry name schema
  rw [hslot]
  exact hsettles.accepts

/-- There is only one name at which registering stops. -/
theorem Settles.slot_eq {index : Nat} (h : registry.Settles name schema index) :
    registry.slot name schema = candidate name index := by
  obtain ⟨other, hslot, hother⟩ := settles_slot registry name schema
  rcases Nat.lt_trichotomy index other with hlt | heq | hlt
  · exact absurd h.accepts (by rw [hother.refuses index hlt]; exact Bool.false_ne_true)
  · rw [hslot, heq]
  · exact absurd hother.accepts (by rw [h.refuses other hlt]; exact Bool.false_ne_true)

/-! ### What one registration does -/

/-- A schema that is there already changes nothing. -/
theorem insert_of_some (h : registry.get? (registry.slot name schema) = some entry) :
    registry.insert name schema = (registry.slot name schema, registry) := by
  simp only [insert, h]

/-- A new schema goes to the end, under its name. -/
theorem insert_of_none (h : registry.get? (registry.slot name schema) = none) :
    registry.insert name schema = (registry.slot name schema,
      { registry with entries := registry.entries ++ [(registry.slot name schema,
        schema.withTitle (registry.slot name schema))] }) := by
  simp only [insert, h]

/-- At most one entry is added, at the end. -/
theorem entries_insert (registry : Registry) (name : String) (schema : Schema) :
    (registry.insert name schema).2 = registry ∨
      (registry.insert name schema).2.entries = registry.entries ++
        [((registry.insert name schema).1, schema.withTitle (registry.insert name schema).1)] := by
  cases hentry : registry.get? (registry.slot name schema) with
  | some entry => exact .inl (by rw [insert_of_some hentry])
  | none => exact .inr (by rw [insert_of_none hentry])

theorem insert_fst (registry : Registry) (name : String) (schema : Schema) :
    (registry.insert name schema).1 = registry.slot name schema := by
  cases hentry : registry.get? (registry.slot name schema) with
  | some entry => rw [insert_of_some hentry]
  | none => rw [insert_of_none hentry]

/-- Entries were added at the end, and nothing else changed. -/
structure Extends (registry registry' : Registry) : Prop where
  entries : registry.entries <+: registry'.entries
  reserved : registry'.reserved = registry.reserved

theorem Extends.refl (registry : Registry) : registry.Extends registry :=
  ⟨List.prefix_refl _, rfl⟩

theorem Extends.trans (h : registry.Extends registry') (h' : registry'.Extends next) :
    registry.Extends next :=
  ⟨h.entries.trans h'.entries, h'.reserved.trans h.reserved⟩

/-- An entry stays. -/
theorem Extends.get? (h : registry.Extends registry') (hentry : registry.get? name = some entry) :
    registry'.get? name = some entry := by
  obtain ⟨added, hadded⟩ := h.entries
  rw [Registry.get?] at hentry ⊢
  rw [← hadded, Fields.get?_append, hentry, Option.some_or]

theorem extends_insert (registry : Registry) (name : String) (schema : Schema) :
    registry.Extends (registry.insert name schema).2 := by
  cases hentry : registry.get? (registry.slot name schema) with
  | some entry =>
    rw [insert_of_some hentry]
    exact .refl registry
  | none =>
    rw [insert_of_none hentry]
    exact ⟨List.prefix_append _ _, rfl⟩

/-- Names are apart, none of them is reserved, and each entry has its name as title. -/
structure WellKept (registry : Registry) : Prop where
  nodup : (Fields.keys registry.entries).Nodup
  free : ∀ name ∈ Fields.keys registry.entries, name ∉ registry.reserved
  titled : ∀ entry ∈ registry.entries, entry.2.title = some entry.1

theorem wellKept_reserving (names : List String) : (reserving names).WellKept :=
  ⟨List.nodup_nil, List.forall_mem_nil _,
    List.forall_mem_nil _⟩

/-- **A registration keeps the registry well.** -/
theorem WellKept.insert (h : registry.WellKept) (name : String) (schema : Schema) :
    (registry.insert name schema).2.WellKept := by
  cases hentry : registry.get? (registry.slot name schema) with
  | some entry =>
    rw [insert_of_some hentry]
    exact h
  | none =>
    rw [insert_of_none hentry]
    have haccepts := accepts_slot registry name schema
    rw [accepts, hentry] at haccepts
    have hunreserved : registry.slot name schema ∉ registry.reserved := by simpa using haccepts
    have hnew := Fields.get?_eq_none_iff.mp hentry
    refine ⟨?_, ?_, ?_⟩
    · simp only [Fields.keys_append, Fields.keys_cons, Fields.keys_nil]
      exact h.nodup.append (List.nodup_singleton _) (List.disjoint_singleton.mpr hnew)
    · simp only [Fields.keys_append, Fields.keys_cons, Fields.keys_nil, List.forall_mem_append,
        List.forall_mem_singleton]
      exact ⟨h.free, hunreserved⟩
    · simp only [List.forall_mem_append, List.forall_mem_singleton]
      exact ⟨h.titled, rfl⟩

/-- The name that a schema was registered under has the schema as its entry, or had one that is
equal to it. -/
theorem exists_entry_insert (registry : Registry) (name : String) (schema : Schema) :
    ∃ entry, (registry.insert name schema).2.get? (registry.slot name schema) = some entry ∧
      (entry = schema.withTitle (registry.slot name schema) ∨
        (entry == schema.withTitle (registry.slot name schema)) = true) := by
  cases hentry : registry.get? (registry.slot name schema) with
  | some entry =>
    have haccepts := accepts_slot registry name schema
    rw [accepts, hentry] at haccepts
    exact ⟨entry, by rw [insert_of_some hentry, hentry], .inr haccepts⟩
  | none =>
    refine ⟨schema.withTitle (registry.slot name schema), ?_, .inl rfl⟩
    rw [insert_of_none hentry]
    rw [get?] at hentry ⊢
    simp only [Fields.get?_append, hentry, Fields.get?_cons, if_true, Option.none_or]

/-- The name that a schema was registered under has an entry that is equal to it. -/
theorem exists_get?_insert (registry : Registry) (name : String) (hschema : schema.DistinctNames) :
    ∃ entry, (registry.insert name schema).2.get? (registry.slot name schema) = some entry ∧
      (entry == schema.withTitle (registry.slot name schema)) = true := by
  obtain ⟨entry, hentry, rfl | heq⟩ := exists_entry_insert registry name schema
  · exact ⟨_, hentry, Schema.beq_self (hschema.retitled _)⟩
  · exact ⟨entry, hentry, heq⟩

/-! ### What sequences of registrations do -/

/-- Register schemas one after the other. -/
def insertAll (registry : Registry) (calls : List (String × Schema)) : Registry :=
  calls.foldl (fun registry call => (registry.insert call.1 call.2).2) registry

theorem extends_insertAll (registry : Registry) (calls : List (String × Schema)) :
    registry.Extends (registry.insertAll calls) := by
  induction calls generalizing registry with
  | nil => exact .refl registry
  | cons call rest ih => exact (extends_insert registry call.1 call.2).trans (ih _)

theorem WellKept.insertAll (h : registry.WellKept) (calls : List (String × Schema)) :
    (registry.insertAll calls).WellKept := by
  induction calls generalizing registry with
  | nil => exact h
  | cons call rest ih => exact ih (h.insert call.1 call.2)

/-- A name that refused a schema refuses it for good. -/
theorem accepts_eq_false_of_extends (h : registry.Extends registry') (hkept : registry'.WellKept)
    (hrefuses : registry.accepts schema name = false) :
    registry'.accepts schema name = false := by
  rw [accepts_eq_false_iff] at hrefuses ⊢
  rcases hrefuses with ⟨entry, hentry, hother⟩ | ⟨-, hreserved⟩
  · exact .inl ⟨entry, h.get? hentry, hother⟩
  · -- A reserved name never gets an entry.
    have hreserved' : name ∈ registry'.reserved := h.reserved.symm ▸ hreserved
    refine .inr ⟨Fields.get?_eq_none_iff.mpr fun hmem => ?_, hreserved'⟩
    exact hkept.free name hmem hreserved'

/-- Names do not tell equal schemas apart. -/
theorem accepts_congr {again : Schema} (hagain : again.DistinctNames)
    (heq : (again == schema) = true) :
    registry.accepts again name = registry.accepts schema name := by
  have hthere : (again.withTitle name == schema.withTitle name) = true :=
    Schema.retitled_beq heq (some name)
  have hback : (schema.withTitle name == again.withTitle name) = true :=
    Schema.retitled_beq (Schema.beq_symm hagain heq) (some name)
  unfold accepts
  cases registry.get? name with
  | none => rfl
  | some entry =>
    rw [Bool.eq_iff_iff]
    constructor
    · exact fun h => Schema.beq_trans h hthere
    · exact fun h => Schema.beq_trans h hback

theorem Settles.congr {again : Schema} {index : Nat} (h : registry.Settles name schema index)
    (hagain : again.DistinctNames) (heq : (again == schema) = true) :
    registry.Settles name again index where
  accepts := by
    rw [accepts_congr hagain heq]
    exact h.accepts
  refuses := by
    intro earlier hearlier
    rw [accepts_congr hagain heq]
    exact h.refuses earlier hearlier

/-- **A name that was found once is found ever after**: the names before still refuse the
schema, and its own holds it. -/
theorem Settles.of_extends {index : Nat} (h : registry.Settles name schema index)
    (hextends : (registry.insert name schema).2.Extends registry') (hkept : registry'.WellKept)
    (hschema : schema.DistinctNames) : registry'.Settles name schema index where
  accepts := by
    obtain ⟨entry, hentry, heq⟩ := exists_get?_insert registry name hschema
    rw [h.slot_eq] at hentry heq
    rw [Registry.accepts, hextends.get? hentry]
    exact heq
  refuses := by
    intro earlier hearlier
    have hall := (extends_insert registry name schema).trans hextends
    exact accepts_eq_false_of_extends hall hkept (h.refuses earlier hearlier)

/-- **What registering a schema promises**, whatever was registered before and is registered
after.  It stops at the first name that accepts the schema, the wanted one or a numbered
variant.  The schema stands there with that title; at most this one entry was added, at the end.
Names stay apart, are not reserved, and are the titles of their entries; entries stay.  The same
schema registered again finds its entry and changes nothing. -/
theorem insert_permanent (reserved : List String) (before after : List (String × Schema))
    (name : String) {schema : Schema} (hschema : schema.DistinctNames) :
    let registry := (reserving reserved).insertAll before
    let chosen := (registry.insert name schema).1
    let registered := (registry.insert name schema).2
    let last := registered.insertAll after
    (chosen = name ∨ ∃ number, 2 ≤ number ∧ chosen = name ++ toString number) ∧
      (∃ index, chosen = candidate name index ∧ registry.Settles name schema index) ∧
      (∃ entry, registered.get? chosen = some entry ∧
        (entry == schema.withTitle chosen) = true) ∧
      (registered = registry ∨
        registered.entries = registry.entries ++ [(chosen, schema.withTitle chosen)]) ∧
      (last.WellKept ∧ last.reserved = reserved) ∧
      (registry.Extends registered ∧ registered.Extends last) ∧
      ∀ again : Schema, again.DistinctNames → (again == schema) = true →
        last.insert name again = (chosen, last) := by
  intro registry chosen registered last
  obtain ⟨index, hslot, hsettles⟩ := settles_slot registry name schema
  have hchosen : chosen = candidate name index := (insert_fst registry name schema).trans hslot
  have hgrown : registry.Extends registered := extends_insert registry name schema
  have hlast : registered.Extends last := extends_insertAll registered after
  have hstart : (reserving reserved).Extends registry := extends_insertAll _ before
  have hkept : last.WellKept := ((wellKept_reserving reserved).insertAll before
    |>.insert name schema).insertAll after
  obtain ⟨entry, hentry, heq⟩ := exists_get?_insert registry name hschema
  rw [← insert_fst registry name schema] at hentry heq
  refine ⟨?_, ⟨index, hchosen, hsettles⟩, ⟨entry, hentry, heq⟩,
    entries_insert registry name schema, ⟨hkept, ?_⟩, ⟨hgrown, hlast⟩, ?_⟩
  · rw [hchosen]
    exact candidate_form name index
  · exact (hstart.trans (hgrown.trans hlast)).reserved
  · intro again hagain hsame
    -- The same names are tried again, with the same outcome.
    have hsettles' : last.Settles name again index :=
      (hsettles.of_extends hlast hkept hschema).congr hagain hsame
    have hfound : last.get? (last.slot name again) = some entry := by
      rw [hsettles'.slot_eq, ← hchosen]
      exact hlast.get? hentry
    rw [insert_of_some hfound, hsettles'.slot_eq, hchosen]

/-- A schema wanted as `Point` beside one reserved and one registered name: it is called
`Point3`, and so it is after another schema took `Point4`. -/
theorem insert_permanent_point :
    let point : Schema := .ofKind (.object ⟨[("x", .ofKind (.primitive .integer)),
      ("y", .ofKind (.primitive .integer))], [], .unstated, [], none⟩)
    let pair : Schema := .ofKind (.object ⟨[("y", .ofKind (.primitive .integer)),
      ("x", .ofKind (.primitive .integer))], [], .unstated, [], none⟩)
    let before := [("Point2", .ofKind .list)]
    let after := [("Point", .ofKind .empty)]
    let registry := (reserving ["Point"]).insertAll before
    let last := (registry.insert "Point" point).2.insertAll after
    point.DistinctNames ∧ pair.DistinctNames ∧ (pair == point) = true ∧
      Fields.keys last.entries = ["Point2", "Point3", "Point4"] ∧
      last.insert "Point" pair = ("Point3", last) := by
  intro point pair before after registry last
  have hpoint : point.DistinctNames := by decide
  have hpair : pair.DistinctNames := by decide
  have hsame : (pair == point) = true := by decide
  have hkeys : Fields.keys last.entries = ["Point2", "Point3", "Point4"] := by decide
  have hchosen : (registry.insert "Point" point).1 = "Point3" := by decide
  obtain ⟨-, -, -, -, -, -, hagain⟩ := insert_permanent ["Point"] before after "Point" hpoint
  have hlast := hagain pair hpair hsame
  rw [hchosen] at hlast
  exact ⟨hpoint, hpair, hsame, hkeys, hlast⟩

end Registry

end RpcSchema
