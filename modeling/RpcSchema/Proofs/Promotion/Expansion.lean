import RpcSchema.Proofs.Registry
import RpcSchema.Proofs.Schema.Rebuilding

/-!
# Putting registered schemas back

A reference to a registered schema is replaced by the entry itself, without its title.  Entries
refer to other entries, so they are put back too, to some depth.

The entries of a registry may be layered: each one refers only to entries before it.  Then the
depth does not matter once it exceeds the number of entries, the entries added later do not
matter either, and no reference to an entry is left.

## Main definitions

* `Schema.registeredName?` — the registered name that a schema is a reference to.
* `Schema.expand` — replace the references to registered schemas.
* `Registry.expandWithin` — replace them by the entries of a registry, to some depth.
* `Registry.Layered` — each entry refers only to entries before it.

## Main results

* `Schema.expand_congr`, `Schema.expand_beq` — what an expansion depends on.
* `Registry.Extends.expandWithin_eq` — the depth and later entries do not matter.
* `Registry.Layered.unlinked_expandWithin` — no reference is left.
* `Registry.Layered.insert` — a registration keeps the entries layered.
-/

namespace RpcSchema

/-- The name that the schema is a reference to, when it is titled with the name of a registered
schema and refers to it. -/
def Schema.registeredName? (schema : Schema) : Option String :=
  match schema.title, schema.kind with
  | some name, .ref reference => if reference = Reference.toComponent name then some name else none
  | _, _ => none

/-- The schema without its title. -/
def Schema.withoutTitle (schema : Schema) : Schema := { schema with title := none }

mutual

/-- Replace the references to the registered names that something is found for. -/
def Schema.expand (found : String → Option Schema) : Schema → Schema
  | ⟨title, description, kind, extra⟩ =>
    match (Schema.registeredName? ⟨title, description, kind, extra⟩).bind found with
    | some schema => schema
    | none => ⟨title, description, Kind.expand found kind, extra⟩

/-- Expand the parts of a shape. -/
def Kind.expand (found : String → Option Schema) : Kind → Kind
  | .object shape => .object (ObjectSchema.expand found shape)
  | .listOf item => .listOf (Schema.expand found item)
  | .tuple items => .tuple (Schema.expandItems found items)
  | .allOf parts => .allOf (Schema.expandItems found parts)
  | .anyOf branches => .anyOf (Schema.expandItems found branches)
  | kind => kind

/-- Expand the parts of an object shape. -/
def ObjectSchema.expand (found : String → Option Schema) : ObjectSchema → ObjectSchema
  | ⟨properties, required, additional, patterns, names⟩ =>
    ⟨Schema.expandFields found properties, required, Additional.expand found additional,
      Schema.expandFields found patterns, names⟩

/-- Expand the schema of undeclared properties. -/
def Additional.expand (found : String → Option Schema) : Additional → Additional
  | .schema value => .schema (Schema.expand found value)
  | other => other

/-- Expand schemas one by one. -/
def Schema.expandItems (found : String → Option Schema) : List Schema → List Schema
  | [] => []
  | schema :: rest => Schema.expand found schema :: Schema.expandItems found rest

/-- Expand the schemas under names. -/
def Schema.expandFields (found : String → Option Schema) :
    List (String × Schema) → List (String × Schema)
  | [] => []
  | (name, schema) :: rest => (name, Schema.expand found schema) :: Schema.expandFields found rest

end

variable {found found' : String → Option Schema} {schema other : Schema} {name : String}
  {registry registry' : Registry}

/-! ### One level of an expansion -/

theorem Schema.expandItems_rebuilt (found : String → Option Schema) (items : List Schema) :
    List.Forall₂ (fun a b => b = a.expand found) items (Schema.expandItems found items) := by
  induction items with
  | nil => exact .nil
  | cons item rest ih => exact .cons rfl ih

theorem Schema.expandFields_rebuilt (found : String → Option Schema) (fields : Fields Schema) :
    Fields.Rebuilt (fun a b => b = a.expand found) fields (Schema.expandFields found fields) := by
  induction fields with
  | nil => exact .nil
  | cons entry rest ih => exact .cons ⟨rfl, rfl⟩ ih

/-- The parts of a shape are expanded one by one. -/
theorem Kind.expand_rebuilt (found : String → Option Schema) (kind : Kind) :
    kind.Rebuilt (fun a b => b = a.expand found) (kind.expand found) := by
  cases kind with
  | object shape =>
    obtain ⟨properties, required, additional, patterns, names⟩ := shape
    refine .object ⟨Schema.expandFields_rebuilt found properties, rfl, ?_,
      Schema.expandFields_rebuilt found patterns, rfl⟩
    cases additional with
    | unstated => exact .unstated
    | allowed flag => exact .allowed flag
    | schema value => exact .schema rfl
  | listOf item => exact .listOf rfl
  | tuple items => exact .tuple (Schema.expandItems_rebuilt found items)
  | allOf parts => exact .allOf (Schema.expandItems_rebuilt found parts)
  | anyOf branches => exact .anyOf (Schema.expandItems_rebuilt found branches)
  | _ => exact .leaf rfl

namespace Schema

/-- A reference with an entry becomes the entry. -/
theorem expand_of_some (h : schema.registeredName?.bind found = some other) :
    schema.expand found = other := by
  obtain ⟨title, description, kind, extra⟩ := schema
  rw [expand, h]

/-- Any other schema keeps what it says of itself. -/
theorem expand_of_none (h : schema.registeredName?.bind found = none) :
    schema.expand found =
      ⟨schema.title, schema.description, schema.kind.expand found, schema.extra⟩ := by
  obtain ⟨title, description, kind, extra⟩ := schema
  rw [expand, h]

/-- References have no parts, so rebuilding a shape does not make or unmake one. -/
theorem registeredName?_rebuilt {r : Schema → Schema → Prop} {kind : Kind}
    (h : schema.kind.Rebuilt r kind) :
    registeredName? ⟨schema.title, schema.description, kind, schema.extra⟩ =
      schema.registeredName? := by
  obtain ⟨title, description, kind', extra⟩ := schema
  simp only at h
  cases h with
  | leaf _ => rfl
  | _ => cases title <;> rfl

/-- Schemas that are equal refer to the same registered name. -/
theorem registeredName?_beq (h : (schema == other) = true) :
    schema.registeredName? = other.registeredName? := by
  obtain ⟨title, description, kind, extra⟩ := schema
  obtain ⟨title', description', kind', extra'⟩ := other
  obtain ⟨htitle, -, hkind, -⟩ := beq_iff.mp h
  simp only at htitle hkind
  subst htitle
  cases hkind with
  | ref _ => rfl
  | _ => cases title <;> rfl

/-- A schema without a title is no such reference. -/
theorem registeredName?_of_untitled (h : schema.title = none) : schema.registeredName? = none := by
  obtain ⟨title, description, kind, extra⟩ := schema
  obtain rfl : title = none := h
  rfl

/-- A schema that is no reference is no such reference. -/
theorem registeredName?_of_ne_ref (h : ∀ reference, schema.kind ≠ .ref reference) :
    schema.registeredName? = none := by
  unfold registeredName?
  split
  · next hreference => exact absurd hreference (h _)
  · rfl

theorem registeredName?_registered (name : String) :
    (Schema.registered name).registeredName? = some name := if_pos rfl

/-! ### What an expansion depends on -/

/-- The registered names that are referred to, at every depth, are among `names`. -/
def RefersWithin (names : List String) (schema : Schema) : Prop :=
  schema.Every fun inner => ∀ name, inner.registeredName? = some name → name ∈ names

/-- Nothing in the schema refers to a registered name. -/
def Unlinked (schema : Schema) : Prop :=
  schema.Every fun inner => inner.registeredName? = none

instance : Decidable schema.Unlinked :=
  inferInstanceAs (Decidable (schema.Every fun inner => inner.registeredName? = none))

theorem RefersWithin.mono {names names' : List String} (h : schema.RefersWithin names)
    (hsub : names ⊆ names') : schema.RefersWithin names' :=
  Every.mono h fun _ hinner name hname => hsub (hinner name hname)

/-- **Only what is found for the names referred to** matters. -/
theorem expand_congr {names : List String} (h : schema.RefersWithin names)
    (hfound : ∀ name ∈ names, found name = found' name) :
    schema.expand found = schema.expand found' := by
  induction h with
  | @intro schema own _ ih =>
    have hbind : schema.registeredName?.bind found = schema.registeredName?.bind found' := by
      cases hname : schema.registeredName? with
      | none => rfl
      | some name => exact hfound name (own name hname)
    cases hfound : schema.registeredName?.bind found with
    | some entry => rw [expand_of_some hfound, expand_of_some (hbind ▸ hfound)]
    | none =>
      have hkind : schema.kind.expand found = schema.kind.expand found' :=
        (schema.kind.expand_rebuilt found).eq (schema.kind.expand_rebuilt found')
          fun part hpart b c hb hc => by rw [hb, hc, ih part hpart]
      rw [expand_of_none hfound, expand_of_none (hbind ▸ hfound), hkind]

/-- A schema without references to registered names stays. -/
theorem expand_eq_self (h : schema.Unlinked) :
    schema.expand found = schema := by
  induction h with
  | @intro schema own _ ih =>
    have hkind : schema.kind.expand found = schema.kind :=
      (schema.kind.expand_rebuilt found).eq (s := fun a b => b = a) (.refl fun _ _ => rfl)
        fun part hpart b c hb hc => by rw [hb, hc, ih part hpart]
    have hnone : schema.registeredName?.bind found = none := by rw [own, Option.bind_none]
    rw [expand_of_none hnone, hkind]
    cases schema with
    | mk => rfl

/-- A property that rebuilding keeps passes on to an expansion, from what is put in and from
what stays. -/
theorem every_expand {p : Schema → Prop}
    (hrebuilt : ∀ {schema : Schema} {kind : Kind}, p schema →
      schema.kind.Rebuilt (fun a b => b = a.expand found) kind →
        p ⟨schema.title, schema.description, kind, schema.extra⟩)
    (h : schema.Every fun inner =>
      (∀ entry, inner.registeredName?.bind found = some entry → entry.Every p) ∧
        (inner.registeredName?.bind found = none → p inner)) :
    (schema.expand found).Every p := by
  induction h with
  | @intro schema own _ ih =>
    cases hfound : schema.registeredName?.bind found with
    | some entry =>
      rw [expand_of_some hfound]
      exact own.1 entry hfound
    | none =>
      rw [expand_of_none hfound]
      have hkind := schema.kind.expand_rebuilt found
      refine .intro (hrebuilt (own.2 hfound) hkind) fun part hpart => ?_
      obtain ⟨original, horiginal, rfl⟩ := exists_mem_of_forall₂_right hkind.parts hpart
      exact ih original horiginal

/-- Names stay apart when they are in what is found. -/
theorem distinctNames_expand (h : schema.DistinctNames)
    (hfound : ∀ name entry, found name = some entry → entry.DistinctNames) :
    (schema.expand found).DistinctNames := by
  refine every_expand (fun hnames hkind => hkind.namesApart hnames _) (Every.mono h ?_)
  intro inner hinner
  refine ⟨fun entry hentry => ?_, fun _ => hinner⟩
  obtain ⟨name, -, hname⟩ := Option.bind_eq_some_iff.mp hentry
  exact hfound name entry hname

/-- No reference is left when there is something for each one, and none in that. -/
theorem unlinked_expand {names : List String} (h : schema.RefersWithin names)
    (hfound : ∀ name ∈ names, ∃ entry, found name = some entry ∧ entry.Unlinked) :
    (schema.expand found).Unlinked := by
  refine every_expand (fun hnone hkind => (registeredName?_rebuilt hkind).trans hnone)
    (Every.mono h fun inner hinner => ?_)
  cases hname : inner.registeredName? with
  | none => exact ⟨fun _ hentry => absurd hentry (Option.some_ne_none _).symm, fun _ => rfl⟩
  | some name =>
    obtain ⟨entry, hentry, hunlinked⟩ := hfound name (hinner name hname)
    simp only [Option.bind_some, hentry, Option.some.injEq, reduceCtorEq, false_imp_iff, and_true]
    rintro _ rfl
    exact hunlinked

/-- **Equal schemas have equal expansions.** -/
theorem expand_beq (h : (schema == other) = true) (hschema : schema.DistinctNames)
    (hother : other.DistinctNames)
    (hfound : ∀ name entry, found name = some entry → entry.DistinctNames) :
    (schema.expand found == other.expand found) = true := by
  induction hschema generalizing other with
  | @intro schema own parts ih =>
    have hsame := registeredName?_beq h
    obtain ⟨htitle, hdescription, hkind, hextra⟩ := beq_iff.mp h
    cases hentry : schema.registeredName?.bind found with
    | some entry =>
      have hdistinct : entry.DistinctNames := by
        obtain ⟨name, -, hname⟩ := Option.bind_eq_some_iff.mp hentry
        exact hfound name entry hname
      rw [expand_of_some hentry, expand_of_some (hsame ▸ hentry)]
      exact beq_self hdistinct
    | none =>
      rw [expand_of_none hentry, expand_of_none (hsame ▸ hentry)]
      refine beq_iff.mpr ⟨htitle, hdescription, ?_, hextra⟩
      -- Back from the expansion, over to the other shape, and to the expansion of that.
      have hback := (schema.kind.expand_rebuilt found).imp
        (s := fun a b => a ∈ schema.kind.parts ∧ b = a.expand found) fun a ha _ hb => ⟨ha, hb⟩
      have hforth := (other.kind.expand_rebuilt found).imp
        (s := fun a b => a ∈ other.kind.parts ∧ b = a.expand found) fun a ha _ hb => ⟨ha, hb⟩
      have hapart := hback.namesApart own none
      have hthere := (hback.flip.alike hapart.literals hapart.maps).trans hkind
        (t := fun b c => ∃ a ∈ schema.kind.parts, b = a.expand found ∧ (a == c) = true)
        fun _ _ a c hba hac => ⟨a, hba.1, hba.2, hac⟩
      refine hthere.trans (hforth.alike hother.own.literals hother.own.maps) ?_
      rintro _ - c _ ⟨a, ha, rfl, hac⟩ ⟨hc, rfl⟩
      exact ih a ha hac (hother.parts c hc)

/-! ### The entries of a registry -/

/-- Under another title, a schema that is no reference refers to the same names. -/
theorem RefersWithin.withTitle {names : List String} (h : schema.RefersWithin names)
    (hkind : ∀ reference, schema.kind ≠ .ref reference) (title : String) :
    (schema.withTitle title).RefersWithin names := by
  refine Every.of_kind_eq h rfl fun name hname => ?_
  have hnone : (schema.withTitle title).registeredName? = none :=
    registeredName?_of_ne_ref hkind
  rw [hnone] at hname
  cases hname

theorem RefersWithin.withoutTitle {names : List String} (h : schema.RefersWithin names) :
    schema.withoutTitle.RefersWithin names := by
  refine Every.of_kind_eq h rfl fun name hname => ?_
  rw [registeredName?_of_untitled rfl] at hname
  cases hname

end Schema

namespace Registry

/-- What a registered name stands for: its entry without the title, in which references are
replaced in turn, to some depth.  At depth zero they are left alone. -/
def expansion (registry : Registry) : Nat → String → Option Schema
  | 0, _ => none
  | depth + 1, name =>
    (registry.get? name).map fun entry => entry.withoutTitle.expand (registry.expansion depth)

/-- The schema with its references to entries replaced by the entries, to some depth. -/
def expandWithin (registry : Registry) (depth : Nat) (schema : Schema) : Schema :=
  schema.expand (registry.expansion depth)

/-- Each entry refers only to entries before it. -/
structure Layered (registry : Registry) : Prop extends registry.WellKept where
  distinct : ∀ entry ∈ registry.entries, entry.2.DistinctNames
  refers : ∀ (index : Nat) (name : String) (entry : Schema),
    registry.entries[index]? = some (name, entry) →
      entry.RefersWithin (Fields.keys (registry.entries.take index))

theorem expansion_succ {entry : Schema} (h : registry.get? name = some entry) (depth : Nat) :
    registry.expansion (depth + 1) name =
      some (registry.expandWithin depth entry.withoutTitle) := by
  rw [expansion, h, Option.map_some, expandWithin]

theorem WellKept.get?_of_getElem? (h : registry.WellKept) {index : Nat} {entry : Schema}
    (hentry : registry.entries[index]? = some (name, entry)) : registry.get? name = some entry :=
  Fields.get?_of_mem h.nodup (List.mem_of_getElem? hentry)

/-- A name among the first entries has one of them. -/
theorem exists_getElem?_of_mem_take {entries : Fields Schema} {count : Nat}
    (h : name ∈ Fields.keys (entries.take count)) :
    ∃ index < count, ∃ entry, entries[index]? = some (name, entry) := by
  obtain ⟨⟨other, entry⟩, hmem, rfl⟩ := List.mem_map.mp h
  obtain ⟨index, hindex⟩ := List.mem_iff_getElem?.mp hmem
  obtain ⟨hlt, -⟩ := List.getElem?_eq_some_iff.mp hindex
  rw [List.length_take] at hlt
  have hcount : index < count := by omega
  rw [List.getElem?_take_of_lt hcount] at hindex
  exact ⟨index, hcount, entry, hindex⟩

/-- A name of an entry has one somewhere. -/
theorem exists_getElem?_of_mem_keys {entries : Fields Schema} (h : name ∈ Fields.keys entries) :
    ∃ index < entries.length, ∃ entry, entries[index]? = some (name, entry) := by
  rw [← List.take_length (l := entries)] at h
  exact exists_getElem?_of_mem_take h

/-- An entry stands for one schema, at every depth that exceeds its position and whatever is
registered later. -/
theorem Extends.expansion_eq (h : registry.Extends registry') (hlayered : registry.Layered)
    {index depth depth' : Nat} {entry : Schema}
    (hentry : registry.entries[index]? = some (name, entry)) (hdepth : index < depth)
    (hdepth' : index < depth') :
    registry.expansion depth name = registry'.expansion depth' name := by
  induction index using Nat.strong_induction_on generalizing name entry depth depth' with
  | h index ih =>
    obtain ⟨depth, rfl⟩ : ∃ less, depth = less + 1 := ⟨depth - 1, by omega⟩
    obtain ⟨depth', rfl⟩ : ∃ less, depth' = less + 1 := ⟨depth' - 1, by omega⟩
    have hfound := hlayered.get?_of_getElem? hentry
    rw [expansion_succ hfound, expansion_succ (h.get? hfound)]
    -- Both expand the same entry, and it refers to names with a smaller position.
    refine congrArg some (Schema.expand_congr (hlayered.refers index name entry hentry).withoutTitle
      fun inner hinner => ?_)
    obtain ⟨earlier, hearlier, innerEntry, hinnerEntry⟩ := exists_getElem?_of_mem_take hinner
    exact ih earlier hearlier hinnerEntry (by omega) (by omega)

/-- **The depth does not matter** once it is as large as the number of entries, nor do entries
that are added later. -/
theorem Extends.expandWithin_eq (h : registry.Extends registry') (hlayered : registry.Layered)
    (hschema : schema.RefersWithin (Fields.keys registry.entries)) {depth depth' : Nat}
    (hdepth : registry.entries.length ≤ depth) (hdepth' : registry.entries.length ≤ depth') :
    registry.expandWithin depth schema = registry'.expandWithin depth' schema := by
  refine Schema.expand_congr hschema fun name hname => ?_
  obtain ⟨index, hindex, entry, hentry⟩ := exists_getElem?_of_mem_keys hname
  exact h.expansion_eq hlayered hentry (by omega) (by omega)

namespace Layered

variable (h : registry.Layered)

include h

/-- In what entries stand for, names are apart. -/
theorem distinctNames_expansion (depth : Nat) {entry : Schema}
    (hentry : registry.expansion depth name = some entry) : entry.DistinctNames := by
  induction depth generalizing name entry with
  | zero => cases hentry
  | succ depth ih =>
    obtain ⟨registered, hregistered, rfl⟩ := Option.map_eq_some_iff.mp hentry
    have hmem := Fields.mem_of_get? hregistered
    exact Schema.distinctNames_expand ((h.distinct _ hmem).retitled none)
      fun _ _ hinner => ih hinner

/-- Entries stand for schemas without references to entries, at every depth that exceeds their
position. -/
theorem exists_expansion {index depth : Nat} {entry : Schema}
    (hentry : registry.entries[index]? = some (name, entry)) (hdepth : index < depth) :
    ∃ expanded, registry.expansion depth name = some expanded ∧ expanded.Unlinked := by
  induction index using Nat.strong_induction_on generalizing name entry depth with
  | h index ih =>
    obtain ⟨depth, rfl⟩ : ∃ less, depth = less + 1 := ⟨depth - 1, by omega⟩
    refine ⟨_, expansion_succ (h.get?_of_getElem? hentry) depth, ?_⟩
    refine Schema.unlinked_expand (h.refers index name entry hentry).withoutTitle
      fun inner hinner => ?_
    obtain ⟨earlier, hearlier, innerEntry, hinnerEntry⟩ := exists_getElem?_of_mem_take hinner
    exact ih earlier hearlier hinnerEntry (by omega)

/-- **No reference to an entry is left** at a depth as large as the number of entries. -/
theorem unlinked_expandWithin (hschema : schema.RefersWithin (Fields.keys registry.entries))
    {depth : Nat} (hdepth : registry.entries.length ≤ depth) :
    (registry.expandWithin depth schema).Unlinked := by
  refine Schema.unlinked_expand hschema fun name hname => ?_
  obtain ⟨index, hindex, entry, hentry⟩ := exists_getElem?_of_mem_keys hname
  exact h.exists_expansion hentry (by omega)

/-- **A registration keeps the entries layered** when what is registered refers to entries. -/
theorem insert (hschema : schema.DistinctNames)
    (hrefers : ∀ title, (schema.withTitle title).RefersWithin (Fields.keys registry.entries)) :
    (registry.insert name schema).2.Layered := by
  have hkept : (registry.insert name schema).2.WellKept := h.toWellKept.insert name schema
  cases hentry : registry.get? (registry.slot name schema) with
  | some entry =>
    rw [insert_of_some hentry]
    exact h
  | none =>
    rw [insert_of_none hentry] at hkept ⊢
    refine ⟨hkept, ?_, ?_⟩
    · simp only [List.forall_mem_append, List.forall_mem_singleton]
      exact ⟨h.distinct, hschema.retitled _⟩
    · intro index other entry hother
      simp only at hother ⊢
      rcases Nat.lt_or_ge index registry.entries.length with hold | hnew
      · rw [List.getElem?_append_left hold] at hother
        rw [List.take_append_of_le_length (Nat.le_of_lt hold)]
        exact h.refers index other entry hother
      · rw [List.getElem?_append_right hnew, List.getElem?_singleton] at hother
        split at hother
        · next hlast =>
          obtain rfl : index = registry.entries.length := by omega
          obtain ⟨-, rfl⟩ := Prod.mk.inj (Option.some.inj hother)
          rw [List.take_left]
          exact hrefers _
        · cases hother

end Layered

theorem layered_reserving (names : List String) : (reserving names).Layered :=
  ⟨wellKept_reserving names, List.forall_mem_nil _,
    fun _ _ _ hentry => by cases hentry⟩

end Registry

end RpcSchema
