import RpcSchema.Promotion
import RpcSchema.Proofs.Registry
import RpcSchema.Proofs.Schema.Rebuilding

/-!
# Promotion is complete

After promotion nothing is left that wants a name: no untitled object with declared properties and
no untitled enumeration of strings, neither in the schema nor in the entries that were added, but
below a title.  A schema with a title is declared on its own and stays as it is.

What promotion makes of a schema is a relation between the two and a registry, with one rule for a
schema with a title, one for an untitled schema that stays, and one for what is registered: a
reference stands in its place, and its entry holds what is left of it.  That nothing wants a name
follows from the relation.  The entry may have been there before; then it is equal to what would
have been registered, and the order of its properties may be another.

Nothing is asked of the registry and the schema.

## Main definitions

* `Schema.WantsName`, `Schema.Settled` — what is given a name, and that no such schema is left.
* `Registry.Promotes` — what promotion makes of a schema.
* `Registry.Leaves` — what a computation that promotes schemas ends with.

## Main results

* `Registry.Promotes.settled` — what promotion leaves is settled.
* `Schema.leaves_lift` — one call, by induction on the schema.
* `Schema.promotion_complete` — both calls.
-/

namespace RpcSchema

/-! ### What is given a name -/

/-- An object with declared properties, or an enumeration of strings. -/
def Kind.WantsName (kind : Kind) : Prop :=
  (∃ shape, kind = .object shape ∧ shape.properties ≠ []) ∨ kind.isStringEnum = true

/-- An untitled object with declared properties, or an untitled enumeration of strings. -/
def Schema.WantsName (schema : Schema) : Prop := schema.title = none ∧ schema.kind.WantsName

/-- No schema in it wants a name, at any depth down to the schemas with a title. -/
inductive Schema.Settled : Schema → Prop
  | titled {schema : Schema} (htitle : schema.title.isSome = true) : Settled schema
  | untitled {schema : Schema} (hown : ¬schema.WantsName)
      (hparts : ∀ part ∈ schema.kind.parts, Settled part) : Settled schema

variable {schema rewritten : Schema} {kind : Kind} {registry registry' : Registry}
  {r : Schema → Schema → Prop}

/-- The acknowledgment is titled or a reference, so among the untitled schemas that want a name it
makes no difference. -/
theorem Schema.isPromotable_iff (htitle : schema.title = none) :
    schema.isPromotable = true ↔ schema.WantsName := by
  obtain ⟨title, description, kind, extra⟩ := schema
  obtain rfl : title = none := htitle
  cases kind <;>
    simp [isPromotable, isAcknowledgment, WantsName, Kind.WantsName, isStringEnum,
      Kind.isStringEnum]

/-- Whether a shape wants a name does not depend on its parts. -/
theorem Kind.Rebuilt.wantsName (hkind : schema.kind.Rebuilt r kind) (h : kind.WantsName) :
    schema.kind.WantsName := by
  generalize schema.kind = original at hkind ⊢
  cases hkind with
  | leaf _ => exact h
  | @object a b hrebuilt =>
    obtain ⟨_, hshape, hproperties⟩ | henum := h
    · obtain rfl := Kind.object.inj hshape
      refine .inl ⟨a, rfl, fun hnone => hproperties ?_⟩
      have hkeys := hrebuilt.properties.keys_eq
      rw [hnone] at hkeys
      exact List.map_eq_nil_iff.mp hkeys
    · cases henum
  | _ => obtain ⟨_, hshape, -⟩ | henum := h <;> contradiction

/-! ### What promotion makes of a schema -/

/-- `registry.Promotes schema rewritten` says that promotion makes `rewritten` of `schema`, with
what was taken out in the registry. -/
inductive Registry.Promotes (registry : Registry) : Schema → Schema → Prop
  /-- A schema with a title stays as it is. -/
  | titled {schema : Schema} (htitle : schema.title.isSome = true) : Promotes registry schema schema
  /-- An untitled schema that wants no name keeps its place, and its parts are promoted. -/
  | kept {schema : Schema} {kind : Kind} {r : Schema → Schema → Prop} (htitle : schema.title = none)
      (hkept : ¬schema.WantsName) (hkind : schema.kind.Rebuilt r kind)
      (hparts : ∀ part left, r part left → Promotes registry part left) :
      Promotes registry schema ⟨none, schema.description, kind, schema.extra⟩
  /-- A reference takes the place of a schema that wants a name, and what is left of the schema
  stands in the registry, or did before up to the order of names. -/
  | named {schema entry : Schema} {kind : Kind} {r : Schema → Schema → Prop} {name : String}
      (hwants : schema.WantsName) (hkind : schema.kind.Rebuilt r kind)
      (hparts : ∀ part left, r part left → Promotes registry part left)
      (hentry : registry.get? name = some entry)
      (hcontent : entry = ⟨some name, schema.description, kind, schema.extra⟩ ∨
        (entry == ⟨some name, schema.description, kind, schema.extra⟩) = true) :
      Promotes registry schema (.registered name)

namespace Registry

namespace Promotes

/-- What was taken out stays where it is. -/
theorem mono (h : registry.Promotes schema rewritten) (hextends : registry.Extends registry') :
    registry'.Promotes schema rewritten := by
  induction h with
  | titled htitle => exact .titled htitle
  | kept htitle hkept hkind _ ih => exact .kept htitle hkept hkind ih
  | named hwants hkind _ hentry hcontent ih =>
    exact .named hwants hkind ih (hextends.get? hentry) hcontent

/-- **What promotion leaves is settled.** -/
theorem settled (h : registry.Promotes schema rewritten) : rewritten.Settled := by
  induction h with
  | titled htitle => exact .titled htitle
  | kept htitle hkept hkind _ ih =>
    refine .untitled (fun hwants => hkept ⟨htitle, hkind.wantsName hwants.2⟩) fun part hpart => ?_
    obtain ⟨original, -, hleft⟩ := exists_mem_of_forall₂_right hkind.parts hpart
    exact ih original part hleft
  | named => exact .titled rfl

/-- A schema with a title stays as it is, and so does the acknowledgment, also as a reference. -/
theorem eq_self (h : registry.Promotes schema rewritten)
    (hfixed : schema.title.isSome = true ∨ schema.isAcknowledgment = true) :
    rewritten = schema := by
  -- Without a title the acknowledgment is a reference.
  have hreference : schema.title = none → ∃ reference, schema.kind = .ref reference := by
    intro htitle
    rw [Schema.isAcknowledgment, htitle] at hfixed
    cases hkind : schema.kind with
    | ref reference => exact ⟨reference, rfl⟩
    | _ => simp [hkind] at hfixed
  cases h with
  | titled => rfl
  | kept htitle _ hkind _ =>
    obtain ⟨title, description, original, extra⟩ := schema
    obtain rfl : title = none := htitle
    obtain ⟨reference, rfl : original = .ref reference⟩ := hreference rfl
    cases hkind with
    | leaf _ => rfl
  | named hwants =>
    obtain ⟨reference, hkind⟩ := hreference hwants.1
    obtain ⟨-, ⟨shape, hshape, -⟩ | henum⟩ := hwants
    · rw [hkind] at hshape
      cases hshape
    · rw [hkind] at henum
      cases henum

end Promotes

/-! ### Computations that promote schemas -/

/-- The entry holds what is left of one of the source schemas, under its name. -/
def HoldsRest (registry : Registry) (source : Schema → Prop) (entry : String × Schema) : Prop :=
  ∃ schema kind, source schema ∧ schema.WantsName ∧ schema.kind.Rebuilt registry.Promotes kind ∧
    entry.2 = ⟨some entry.1, schema.description, kind, schema.extra⟩

/-- Started in this registry, the computation adds entries that hold what is left of source
schemas, changes nothing else, and ends with a value that satisfies `p` then. -/
structure Leaves (registry : Registry) (source : Schema → Prop) {α : Type}
    (p : Registry → α → Prop) (x : StateM Registry α) : Prop where
  added : ∃ added, (x.run registry).2.entries = registry.entries ++ added ∧
    ∀ entry ∈ added, (x.run registry).2.HoldsRest source entry
  reserved : (x.run registry).2.reserved = registry.reserved
  holds : p (x.run registry).2 (x.run registry).1

/-- What stays true when more is registered. -/
def Stays (p : Registry → Prop) : Prop :=
  ∀ ⦃registry registry' : Registry⦄, registry.Extends registry' → p registry → p registry'

theorem stays_promotes (schema rewritten : Schema) :
    Stays fun registry => registry.Promotes schema rewritten :=
  fun _ _ hextends h => h.mono hextends

theorem stays_rebuilt (kind kind' : Kind) :
    Stays fun registry => kind.Rebuilt registry.Promotes kind' :=
  fun _ _ hextends h => h.imp fun _ _ _ hleft => hleft.mono hextends

theorem stays_forall₂ {α β : Type} {r : Registry → α → β → Prop}
    (hr : ∀ a b, Stays fun registry => r registry a b) (as : List α) (bs : List β) :
    Stays fun registry => List.Forall₂ (r registry) as bs :=
  fun _ _ hextends h => h.imp fun a b hab => hr a b hextends hab

theorem HoldsRest.mono {source : Schema → Prop} {entry : String × Schema}
    (h : registry.HoldsRest source entry) (hextends : registry.Extends registry') :
    registry'.HoldsRest source entry := by
  obtain ⟨schema, kind, hsource, hwants, hkind, hentry⟩ := h
  exact ⟨schema, kind, hsource, hwants, stays_rebuilt _ _ hextends hkind, hentry⟩

theorem HoldsRest.settled {source : Schema → Prop} {entry : String × Schema}
    (h : registry.HoldsRest source entry) : ∀ part ∈ entry.2.kind.parts, part.Settled := by
  obtain ⟨schema, kind, -, -, hkind, hentry⟩ := h
  rw [hentry]
  intro part hpart
  obtain ⟨original, -, hleft⟩ := exists_mem_of_forall₂_right hkind.parts hpart
  exact hleft.settled

section Rules

variable {α β : Type} {source : Schema → Prop} {p : Registry → α → Prop} {q : Registry → β → Prop}
  {x : StateM Registry α} {f : α → StateM Registry β}

theorem Leaves.extends (h : registry.Leaves source p x) : registry.Extends (x.run registry).2 := by
  obtain ⟨added, hentries, -⟩ := h.added
  exact ⟨⟨added, hentries.symm⟩, h.reserved⟩

theorem Leaves.pure {value : α} (h : p registry value) :
    registry.Leaves source p (Pure.pure value) :=
  ⟨⟨[], (List.append_nil _).symm, List.forall_mem_nil _⟩, rfl, h⟩

/-- What stays of the first computation is known where the second one starts and where it ends. -/
theorem Leaves.bind (hp : ∀ value, Stays fun registry => p registry value)
    (hx : registry.Leaves source p x)
    (hf : ∀ (middle : Registry) (value : α), p middle value →
      middle.Leaves source (fun last result => p last value → q last result) (f value)) :
    registry.Leaves source q (x >>= f) := by
  have hrest := hf _ _ hx.holds
  refine ⟨?_, hrest.reserved.trans hx.reserved, hrest.holds (hp _ hrest.extends hx.holds)⟩
  obtain ⟨first, hfirst, hheld⟩ := hx.added
  obtain ⟨second, hsecond, hheld'⟩ := hrest.added
  refine ⟨first ++ second, ?_, List.forall_mem_append.mpr ⟨fun entry hentry => ?_, hheld'⟩⟩
  · rw [← List.append_assoc, ← hfirst]
    exact hsecond
  · exact (hheld entry hentry).mono hrest.extends

theorem Leaves.map {f : α → β} (hx : registry.Leaves source p x)
    (hf : ∀ (last : Registry) (value : α), p last value → q last (f value)) :
    registry.Leaves source q (do let value ← x; Pure.pure (f value)) :=
  ⟨hx.added, hx.reserved, hf _ _ hx.holds⟩

/-- Computations one after the other, with values that make up a list. -/
theorem Leaves.cons {γ : Type} {r : Registry → α → β → Prop}
    (hr : ∀ a b, Stays fun registry => r registry a b) {a : α} {as : List α} {f : γ → β}
    {x : StateM Registry γ} {rest : StateM Registry (List β)}
    (hx : registry.Leaves source (fun last value => r last a (f value)) x)
    (hrest : ∀ middle : Registry,
      middle.Leaves source (fun last => List.Forall₂ (r last) as) rest) :
    registry.Leaves source (fun last => List.Forall₂ (r last) (a :: as))
      (do let value ← x; let values ← rest; Pure.pure (f value :: values)) :=
  .bind (fun value => hr a (f value)) hx fun middle _ _ =>
    (hrest middle).map fun _ _ hvalues hvalue => .cons hvalue hvalues

end Rules

/-- **A schema is registered** with what is left of it. -/
theorem leaves_register {source : Schema → Prop} (name : String) (hsource : source schema)
    (hwants : schema.WantsName) (hkind : schema.kind.Rebuilt registry.Promotes kind) :
    registry.Leaves source (fun last => last.Promotes schema) (do
      let chosen ← modifyGet fun registry : Registry =>
        registry.insert name ⟨some name, schema.description, kind, schema.extra⟩
      Pure.pure (Schema.registered chosen)) := by
  let content : Schema := ⟨some name, schema.description, kind, schema.extra⟩
  let last := (registry.insert name content).2
  have hgrows : registry.Extends last := extends_insert registry name content
  have hkind' : schema.kind.Rebuilt last.Promotes kind := stays_rebuilt _ _ hgrows hkind
  refine ⟨?_, hgrows.reserved, ?_⟩
  · change ∃ added, last.entries = registry.entries ++ added ∧ _
    rcases entries_insert registry name content with hsame | hadded
    · refine ⟨[], ?_, List.forall_mem_nil _⟩
      rw [List.append_nil, show last = registry from hsame]
    · refine ⟨_, hadded, List.forall_mem_singleton.mpr ?_⟩
      exact ⟨schema, kind, hsource, hwants, hkind', rfl⟩
  · change last.Promotes schema (.registered (registry.insert name content).1)
    obtain ⟨entry, hentry, hcontent⟩ := exists_entry_insert registry name content
    rw [← insert_fst registry name content] at hentry hcontent
    exact .named hwants hkind' (fun _ _ hleft => hleft) hentry hcontent

end Registry

/-! ### Promoting what a shape holds -/

open Registry

section Parts

variable {source : Schema → Prop} {items : List Schema} {fields : Fields Schema}

/-- The computation promotes the schema, whatever is registered. -/
def Schema.PromotedBy (source : Schema → Prop) (schema : Schema) (x : StateM Registry Schema) :
    Prop :=
  ∀ registry : Registry, registry.Leaves source (fun last => last.Promotes schema) x

open Schema (PromotedBy)

theorem Schema.leaves_liftItems
    (h : ∀ item ∈ items, ∀ name, PromotedBy source item (item.lift name))
    (registry : Registry) (name : String) :
    registry.Leaves source (fun last => List.Forall₂ last.Promotes items)
      (Schema.liftItems name items) := by
  induction items generalizing registry with
  | nil => exact .pure .nil
  | cons item rest ih =>
    obtain ⟨hitem, hrest⟩ := List.forall_mem_cons.mp h
    exact .cons stays_promotes (f := id) (hitem name registry) fun middle => ih hrest middle

theorem Schema.leaves_liftTuple
    (h : ∀ item ∈ items, ∀ name, PromotedBy source item (item.lift name))
    (registry : Registry) (name : String) (index : Nat) :
    registry.Leaves source (fun last => List.Forall₂ last.Promotes items)
      (Schema.liftTuple name index items) := by
  induction items generalizing registry index with
  | nil => exact .pure .nil
  | cons item rest ih =>
    obtain ⟨hitem, hrest⟩ := List.forall_mem_cons.mp h
    exact .cons stays_promotes (f := id) (hitem _ registry) fun middle => ih hrest middle _

/-- Schemas that are promoted under their names. -/
theorem stays_fieldPromotes (x y : String × Schema) :
    Stays fun registry => x.1 = y.1 ∧ registry.Promotes x.2 y.2 :=
  fun _ _ hextends h => ⟨h.1, h.2.mono hextends⟩

/-- One entry of a map after the other. -/
theorem leaves_cons_field {name : String} {part : Schema} {x : StateM Registry Schema}
    {rest : StateM Registry (Fields Schema)} (hx : PromotedBy source part x)
    (hrest : ∀ middle : Registry,
      middle.Leaves source (fun last => Fields.Rebuilt last.Promotes fields) rest) :
    registry.Leaves source (fun last => Fields.Rebuilt last.Promotes ((name, part) :: fields))
      (do let lifted ← x; let others ← rest; Pure.pure ((name, lifted) :: others)) := by
  obtain ⟨hadded, hreserved, hleft⟩ := hx registry
  exact .cons stays_fieldPromotes (f := fun lifted => (name, lifted))
    ⟨hadded, hreserved, rfl, hleft⟩ hrest

theorem Schema.leaves_liftProperties
    (h : ∀ entry ∈ fields, ∀ name, PromotedBy source entry.2 (entry.2.lift name))
    (registry : Registry) (owner : String) :
    registry.Leaves source (fun last => Fields.Rebuilt last.Promotes fields)
      (Schema.liftProperties owner fields) := by
  induction fields generalizing registry with
  | nil => exact .pure .nil
  | cons entry rest ih =>
    obtain ⟨hentry, hrest⟩ := List.forall_mem_cons.mp h
    exact leaves_cons_field (hentry _) fun middle => ih hrest middle

theorem Schema.leaves_liftValues
    (h : ∀ entry ∈ fields, ∀ name, PromotedBy source entry.2 (entry.2.lift name))
    (registry : Registry) (owner : String) :
    registry.Leaves source (fun last => Fields.Rebuilt last.Promotes fields)
      (Schema.liftValues owner fields) := by
  induction fields generalizing registry with
  | nil => exact .pure .nil
  | cons entry rest ih =>
    obtain ⟨hentry, hrest⟩ := List.forall_mem_cons.mp h
    exact leaves_cons_field (hentry _) fun middle => ih hrest middle

theorem stays_additional (x y : Additional) :
    Stays fun registry => Additional.Alike registry.Promotes x y :=
  fun _ _ hextends h => h.imp fun _ _ _ hleft => hleft.mono hextends

theorem Additional.leaves_promote {additional : Additional}
    (h : ∀ value, additional = .schema value → ∀ name, PromotedBy source value (value.lift name))
    (registry : Registry) (owner : String) :
    registry.Leaves source (fun last => Additional.Alike last.Promotes additional)
      (Additional.promote owner additional) := by
  cases additional with
  | unstated => exact .pure .unstated
  | allowed flag => exact .pure (.allowed flag)
  | schema value => exact (h value rfl _ registry).map fun _ _ hleft => .schema hleft

/-- **The parts of a shape are promoted one by one.** -/
theorem Kind.leaves_promote
    (h : ∀ part ∈ kind.parts, ∀ name, PromotedBy source part (part.lift name))
    (registry : Registry) (owner hint : String) :
    registry.Leaves source (fun last => kind.Rebuilt last.Promotes) (kind.promote owner hint) := by
  cases kind with
  | object shape =>
    obtain ⟨hproperties, hadditional, hpatterns⟩ := ObjectSchema.forall_parts_iff.mp h
    obtain ⟨properties, required, additional, patterns, names⟩ := shape
    refine Leaves.map (p := fun last shape => ObjectSchema.Rebuilt last.Promotes
      ⟨properties, required, additional, patterns, names⟩ shape) ?_ fun _ _ h => .object h
    refine .bind (fun _ => stays_forall₂ stays_fieldPromotes _ _)
      (Schema.leaves_liftProperties hproperties registry owner) fun middle _ _ => ?_
    refine .bind (stays_additional _) (Additional.leaves_promote hadditional middle owner)
      fun middle _ _ => ?_
    exact (Schema.leaves_liftValues hpatterns middle owner).map
      fun _ _ hmatched hundeclared hdeclared => ⟨hdeclared, rfl, hundeclared, hmatched, rfl⟩
  | listOf item =>
    exact (h item (List.mem_singleton_self _) hint registry).map fun _ _ h => .listOf h
  | tuple items => exact (Schema.leaves_liftTuple h registry hint 0).map fun _ _ h => .tuple h
  | allOf parts => exact (Schema.leaves_liftItems h registry hint).map fun _ _ h => .allOf h
  | anyOf branches => exact (Schema.leaves_liftItems h registry hint).map fun _ _ h => .anyOf h
  | _ => exact .pure (.leaf rfl)

end Parts

/-! ### Calls -/

namespace Schema

/-- **A lifted schema is promoted**, whatever is registered.  By induction on the schema: its parts
are lifted first. -/
theorem leaves_lift {source : Schema → Prop} (h : schema.Every source) (name : String) :
    PromotedBy source schema (schema.lift name) := by
  induction schema using induction_parts generalizing name with
  | h schema ih =>
    intro registry
    have hparts : ∀ part ∈ schema.kind.parts, ∀ name, PromotedBy source part (part.lift name) :=
      fun part hpart => ih part hpart (h.parts part hpart)
    obtain ⟨title, description, kind, extra⟩ := schema
    rw [lift]
    cases title with
    | some title => exact .pure (.titled rfl)
    | none =>
      refine .bind (stays_rebuilt kind) (Kind.leaves_promote hparts registry name name)
        fun middle kind' hkind => ?_
      split
      · next hpromotable =>
        have hregistered := leaves_register name h.own ((isPromotable_iff rfl).mp hpromotable) hkind
        exact ⟨hregistered.added, hregistered.reserved, fun _ => hregistered.holds⟩
      · next hother =>
        have hkept := fun hwants => hother ((isPromotable_iff rfl).mpr hwants)
        exact .pure fun hkind => .kept rfl hkept hkind fun _ _ hleft => hleft

/-- **The parts of a promoted schema are promoted**, and nothing else in it changes. -/
theorem leaves_promote (schema : Schema) (registry : Registry) (name : String) :
    registry.Leaves (· ∈ schema.all) (fun last promoted =>
      promoted = { schema with kind := promoted.kind } ∧
        schema.kind.Rebuilt last.Promotes promoted.kind) (schema.promote name) := by
  have hevery : schema.Every (· ∈ schema.all) := every_iff_all.mpr fun _ hinner => hinner
  have hparts : ∀ part ∈ schema.kind.parts, ∀ name,
      PromotedBy (· ∈ schema.all) part (part.lift name) :=
    fun part hpart => leaves_lift (hevery.parts part hpart)
  exact (Kind.leaves_promote hparts registry _ name).map fun _ _ hkind => ⟨rfl, hkind⟩

/-- **Promotion is complete**, for every registry, schema and name.

A call adds entries at the end of the registry and changes nothing else there.  When a schema is
lifted, what is left of it is settled; when a schema is promoted, what is left of its parts is; and
so are the parts of each entry that was added.  The lifted schema and the parts of the promoted one
are left as `Promotes` says: references stand in the place of the schemas that want a name, and what
is left of these is found in the registry.  The added entries are what is left of such schemas.
Schemas with a title and acknowledgments are left exactly as they were. -/
theorem promotion_complete (registry : Registry) (schema : Schema) (name : String) :
    (∃ lifted last added, (schema.lift name).run registry = (lifted, last) ∧
      last.entries = registry.entries ++ added ∧ last.reserved = registry.reserved ∧
      lifted.Settled ∧ (∀ entry ∈ added, ∀ part ∈ entry.2.kind.parts, part.Settled) ∧
      last.Promotes schema lifted ∧ ∀ entry ∈ added, last.HoldsRest (· ∈ schema.all) entry) ∧
    (∃ promoted last added, (schema.promote name).run registry = (promoted, last) ∧
      last.entries = registry.entries ++ added ∧ last.reserved = registry.reserved ∧
      (∀ part ∈ promoted.kind.parts, part.Settled) ∧
      (∀ entry ∈ added, ∀ part ∈ entry.2.kind.parts, part.Settled) ∧
      promoted = { schema with kind := promoted.kind } ∧
      schema.kind.Rebuilt last.Promotes promoted.kind ∧
      ∀ entry ∈ added, last.HoldsRest (· ∈ schema.all) entry) ∧
    ∀ (last : Registry) (part left : Schema), last.Promotes part left →
      part.title.isSome = true ∨ part.isAcknowledgment = true → left = part := by
  refine ⟨?_, ?_, fun _ _ _ hleft => hleft.eq_self⟩
  · have hevery : schema.Every (· ∈ schema.all) := every_iff_all.mpr fun _ hinner => hinner
    obtain ⟨⟨added, hentries, hrest⟩, hreserved, hleft⟩ := leaves_lift hevery name registry
    exact ⟨_, _, added, rfl, hentries, hreserved, hleft.settled,
      fun entry hentry => (hrest entry hentry).settled, hleft, hrest⟩
  · obtain ⟨⟨added, hentries, hrest⟩, hreserved, hsame, hkind⟩ :=
      leaves_promote schema registry name
    refine ⟨_, _, added, rfl, hentries, hreserved, fun part hpart => ?_,
      fun entry hentry => (hrest entry hentry).settled, hsame, hkind, hrest⟩
    obtain ⟨original, -, hleft⟩ := exists_mem_of_forall₂_right hkind.parts hpart
    exact hleft.settled

end Schema

end RpcSchema
