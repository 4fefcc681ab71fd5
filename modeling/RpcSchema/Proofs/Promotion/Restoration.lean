import RpcSchema.Promotion
import RpcSchema.Proofs.Promotion.Expansion

/-!
# Promotion loses nothing

What promotion takes out of a schema can be put back: expanding the rewritten schema with the
entries of the registry gives the schema that was promoted.  This is so right after the call and
stays so, because entries are layered and stay.

A part is promoted before the schema that holds it.  So when a schema is registered, it refers
to entries that are there already.  An entry that is shared was registered for a schema that is
equal to the new one, references included, and equal schemas have equal expansions.

## Main definitions

* `Registry.Keeps p` — what a computation that registers schemas ends with.
* `Registry.Restores` — expanding one schema gives the other one.
* `Promotion` — a call of promotion.

## Main results

* `Schema.restoring_lift`, `Schema.restoring_promote` — one call.
* `Promotion.expandWithin_runs` — any sequence of calls.
-/

namespace RpcSchema

variable {schema rewritten : Schema} {name : String} {registry registry' : Registry}

namespace Registry

/-! ### Computations that register schemas -/

/-- Started in this registry, the computation ends in one that is layered and extends it, with a
value that satisfies `p` there. -/
structure Keeps (registry : Registry) {α : Type} (p : Registry → α → Prop)
    (x : StateM Registry α) : Prop where
  grows : registry.Extends (x.run registry).2
  layered : (x.run registry).2.Layered
  holds : p (x.run registry).2 (x.run registry).1

/-- What stays true when more is registered. -/
def Lasting (p : Registry → Prop) : Prop :=
  ∀ ⦃registry registry' : Registry⦄, registry.Layered → registry.Extends registry' →
    p registry → p registry'

section Rules

variable {α β : Type} {p : Registry → α → Prop} {q : Registry → β → Prop}
  {x : StateM Registry α} {f : α → StateM Registry β}

theorem Keeps.pure {value : α} (hlayered : registry.Layered) (h : p registry value) :
    registry.Keeps p (Pure.pure value) :=
  ⟨.refl registry, hlayered, h⟩

/-- What lasts of the first computation is known where the second one starts and where it
ends. -/
theorem Keeps.bind (hp : ∀ value, Lasting fun registry => p registry value)
    (hx : registry.Keeps p x)
    (hf : ∀ (middle : Registry) (value : α), middle.Layered → p middle value →
      middle.Keeps (fun last result => p last value → q last result) (f value)) :
    registry.Keeps q (x >>= f) := by
  have hrest := hf _ _ hx.layered hx.holds
  exact ⟨hx.grows.trans hrest.grows, hrest.layered,
    hrest.holds (hp _ hx.layered hrest.grows hx.holds)⟩

theorem Keeps.map {f : α → β} (hx : registry.Keeps p x)
    (hf : ∀ (last : Registry) (value : α), p last value → q last (f value)) :
    registry.Keeps q (do let value ← x; Pure.pure (f value)) :=
  ⟨hx.grows, hx.layered, hf _ _ hx.holds⟩

end Rules

section Lists

variable {α β γ : Type} {r : Registry → α → β → Prop}

theorem lasting_forall₂ (hr : ∀ a b, Lasting fun registry => r registry a b) (as : List α)
    (bs : List β) : Lasting fun registry => List.Forall₂ (r registry) as bs :=
  fun _ _ hlayered hextends h => h.imp fun a b hab => hr a b hlayered hextends hab

/-- Computations one after the other, with values that make up a list. -/
theorem Keeps.cons (hr : ∀ a b, Lasting fun registry => r registry a b) {a : α} {as : List α}
    {f : γ → β} {x : StateM Registry γ} {rest : StateM Registry (List β)}
    (hx : registry.Keeps (fun last value => r last a (f value)) x)
    (hrest : ∀ middle : Registry, middle.Layered →
      middle.Keeps (fun last => List.Forall₂ (r last) as) rest) :
    registry.Keeps (fun last => List.Forall₂ (r last) (a :: as))
      (do let value ← x; let values ← rest; Pure.pure (f value :: values)) :=
  .bind (fun value => hr a (f value)) hx fun middle _ hmiddle _ =>
    (hrest middle hmiddle).map fun _ _ hvalues hvalue => .cons hvalue hvalues

end Lists

/-! ### Schemas that can be put back -/

/-- Expanding the rewritten schema gives the other one. -/
structure Restores (registry : Registry) (schema rewritten : Schema) : Prop where
  refers : rewritten.RefersWithin (Fields.keys registry.entries)
  distinct : rewritten.DistinctNames
  expands : (registry.expandWithin registry.entries.length rewritten == schema) = true

theorem Extends.keys_subset (h : registry.Extends registry') :
    Fields.keys registry.entries ⊆ Fields.keys registry'.entries :=
  (h.entries.map Prod.fst).subset

theorem lasting_restores (schema rewritten : Schema) :
    Lasting fun registry => registry.Restores schema rewritten := by
  intro registry registry' hlayered hextends h
  refine ⟨h.refers.mono hextends.keys_subset, h.distinct, ?_⟩
  rw [← hextends.expandWithin_eq hlayered h.refers (Nat.le_refl _) hextends.entries.length_le]
  exact h.expands

theorem lasting_rebuilt (kind kind' : Kind) :
    Lasting fun registry => kind.Rebuilt registry.Restores kind' :=
  fun _ _ hlayered hextends h => h.imp fun a _ b hab => lasting_restores a b hlayered hextends hab

/-- A schema that refers to no entry is its own expansion. -/
theorem restores_self (hdistinct : schema.DistinctNames) (hunlinked : schema.Unlinked) :
    registry.Restores schema schema := by
  refine ⟨?_, hdistinct, ?_⟩
  · exact Schema.Every.mono hunlinked fun inner hinner name hname => by
      rw [hinner] at hname
      cases hname
  · rw [expandWithin, Schema.expand_eq_self hunlinked]
    exact Schema.beq_self hdistinct

/-- A schema can be put back when its parts can be. -/
theorem restores_of_rebuilt {kind : Kind} (hnames : schema.NamesApart)
    (hunlinked : schema.registeredName? = none)
    (h : schema.kind.Rebuilt registry.Restores kind) :
    registry.Restores schema ⟨schema.title, schema.description, kind, schema.extra⟩ := by
  have hname := (Schema.registeredName?_rebuilt h).trans hunlinked
  have hapart := h.namesApart hnames schema.title
  refine ⟨.intro ?_ fun part hpart => ?_, .intro hapart fun part hpart => ?_, ?_⟩
  · intro name hsome
    rw [hname] at hsome
    cases hsome
  · obtain ⟨_, -, hrestores⟩ := exists_mem_of_forall₂_right h.parts hpart
    exact hrestores.refers
  · obtain ⟨_, -, hrestores⟩ := exists_mem_of_forall₂_right h.parts hpart
    exact hrestores.distinct
  · rw [expandWithin, Schema.expand_of_none (by rw [hname, Option.bind_none])]
    have hforth := kind.expand_rebuilt (registry.expansion registry.entries.length)
    have hexpanded := hforth.namesApart hapart none
    refine Schema.beq_iff.mpr ⟨rfl, rfl, ?_, Json.beq_self hnames.extra⟩
    -- Back from the expansion to the rewritten shape, and from there to the first one.
    refine (hforth.flip.alike hexpanded.literals hexpanded.maps).trans
      (h.flip.alike hapart.literals hapart.maps) ?_
    rintro _ - part original rfl hrestores
    exact hrestores.expands

/-- A reference to a registered name holds no maps. -/
theorem distinctNames_registered (name : String) : (Schema.registered name).DistinctNames := by
  have hplain : (Schema.reference (Reference.toComponent name)).NamesApart := .ofKind rfl rfl
  exact .intro ⟨hplain.extra, hplain.literals, hplain.maps⟩
    (List.forall_mem_nil _)

/-- A reference to an entry expands to what the entry expands to. -/
theorem Layered.expandWithin_registered (h : registry.Layered) {entry : Schema}
    (hentry : registry.get? name = some entry) :
    registry.expandWithin registry.entries.length (Schema.registered name) =
      registry.expandWithin registry.entries.length entry.withoutTitle := by
  obtain ⟨index, hindex⟩ := List.mem_iff_getElem?.mp (Fields.mem_of_get? hentry)
  obtain ⟨hlt, -⟩ := List.getElem?_eq_some_iff.mp hindex
  refine Schema.expand_of_some ?_
  rw [Schema.registeredName?_registered, Option.bind_some,
    (Extends.refl registry).expansion_eq h hindex hlt (Nat.lt_succ_of_lt hlt),
    expansion_succ hentry]

/-- **A schema is registered** when its parts can be put back, and then it can be, too. -/
theorem Layered.keeps_insert (h : registry.Layered) (name : String) {kind : Kind}
    (hnames : schema.NamesApart) (huntitled : schema.title = none)
    (hkind : ∀ reference, kind ≠ .ref reference)
    (hparts : schema.kind.Rebuilt registry.Restores kind) :
    registry.Keeps (fun last => last.Restores schema) (do
      let chosen ← modifyGet fun registry : Registry =>
        registry.insert name ⟨some name, schema.description, kind, schema.extra⟩
      pure (Schema.registered chosen)) := by
  let content : Schema := ⟨some name, schema.description, kind, schema.extra⟩
  let chosen := (registry.insert name content).1
  let last := (registry.insert name content).2
  have hplain : registry.Restores schema content.withoutTitle := by
    have hrestores := restores_of_rebuilt hnames (Schema.registeredName?_of_untitled huntitled)
      hparts
    rwa [huntitled] at hrestores
  have hcontent : content.DistinctNames := hplain.distinct.retitled (some name)
  have hgrows : registry.Extends last := extends_insert registry name content
  have hlayered : last.Layered := h.insert hcontent fun title => hplain.refers.withTitle hkind title
  obtain ⟨entry, hentry, heq⟩ := exists_get?_insert registry name hcontent
  rw [← insert_fst registry name content] at hentry heq
  have hmem := Fields.mem_of_get? hentry
  refine ⟨hgrows, hlayered, ⟨.intro ?_ (List.forall_mem_nil _),
    distinctNames_registered chosen, ?_⟩⟩
  · intro other hother
    obtain rfl : chosen = other := Option.some.inj
      ((Schema.registeredName?_registered chosen).symm.trans hother)
    exact Fields.mem_keys_of_mem hmem
  · -- The entry may be an earlier one; it is equal to what was to be registered.
    have hequal : (entry.withoutTitle == (content.withTitle chosen).withoutTitle) = true :=
      Schema.retitled_beq heq none
    have hexpand : (last.expandWithin last.entries.length entry.withoutTitle ==
        last.expandWithin last.entries.length content.withoutTitle) = true :=
      Schema.expand_beq hequal ((hlayered.distinct _ hmem).retitled none) hplain.distinct
        fun _ _ hfound => hlayered.distinctNames_expansion _ hfound
    have hrestores := lasting_restores schema content.withoutTitle h hgrows hplain
    change (last.expandWithin last.entries.length (Schema.registered chosen) == schema) = true
    rw [hlayered.expandWithin_registered hentry]
    exact Schema.beq_trans hexpand hrestores.expands

/-- The computation rewrites a schema such that it can be put back. -/
def Restoring (schema : Schema) (x : StateM Registry Schema) : Prop :=
  ∀ registry : Registry, registry.Layered → registry.Keeps (fun last => last.Restores schema) x

end Registry

/-! ### Promoting what a shape holds -/

open Registry

section Parts

variable {items : List Schema} {fields : Fields Schema}

theorem Schema.liftItems_keeps (h : ∀ item ∈ items, ∀ name, Restoring item (item.lift name))
    (hlayered : registry.Layered) (name : String) :
    registry.Keeps (fun last => List.Forall₂ last.Restores items)
      (Schema.liftItems name items) := by
  induction items generalizing registry with
  | nil => exact .pure hlayered .nil
  | cons item rest ih =>
    obtain ⟨hitem, hrest⟩ := List.forall_mem_cons.mp h
    exact .cons lasting_restores (f := id) (hitem name registry hlayered) fun _ h => ih hrest h

theorem Schema.liftTuple_keeps (h : ∀ item ∈ items, ∀ name, Restoring item (item.lift name))
    (hlayered : registry.Layered) (name : String) (index : Nat) :
    registry.Keeps (fun last => List.Forall₂ last.Restores items)
      (Schema.liftTuple name index items) := by
  induction items generalizing registry index with
  | nil => exact .pure hlayered .nil
  | cons item rest ih =>
    obtain ⟨hitem, hrest⟩ := List.forall_mem_cons.mp h
    exact .cons lasting_restores (f := id) (hitem _ registry hlayered) fun _ h => ih hrest h _

/-- Entries of maps that can be put back under their names. -/
theorem lasting_fieldRestores (x y : String × Schema) :
    Lasting fun registry => x.1 = y.1 ∧ registry.Restores x.2 y.2 :=
  fun _ _ hlayered hextends h => ⟨h.1, lasting_restores x.2 y.2 hlayered hextends h.2⟩

/-- One entry of a map after the other. -/
theorem keeps_cons_field {name : String} {part : Schema} {x : StateM Registry Schema}
    {rest : StateM Registry (Fields Schema)}
    (hx : registry.Keeps (fun last => last.Restores part) x)
    (hrest : ∀ middle : Registry, middle.Layered →
      middle.Keeps (fun last => Fields.Rebuilt last.Restores fields) rest) :
    registry.Keeps (fun last => Fields.Rebuilt last.Restores ((name, part) :: fields))
      (do let lifted ← x; let others ← rest; Pure.pure ((name, lifted) :: others)) :=
  .cons lasting_fieldRestores (f := fun lifted => (name, lifted))
    ⟨hx.grows, hx.layered, rfl, hx.holds⟩ hrest

theorem Schema.liftProperties_keeps
    (h : ∀ entry ∈ fields, ∀ name, Restoring entry.2 (entry.2.lift name))
    (hlayered : registry.Layered) (owner : String) :
    registry.Keeps (fun last => Fields.Rebuilt last.Restores fields)
      (Schema.liftProperties owner fields) := by
  induction fields generalizing registry with
  | nil => exact .pure hlayered .nil
  | cons entry rest ih =>
    obtain ⟨hentry, hrest⟩ := List.forall_mem_cons.mp h
    exact keeps_cons_field (hentry _ registry hlayered) fun _ h => ih hrest h

theorem Schema.liftValues_keeps
    (h : ∀ entry ∈ fields, ∀ name, Restoring entry.2 (entry.2.lift name))
    (hlayered : registry.Layered) (owner : String) :
    registry.Keeps (fun last => Fields.Rebuilt last.Restores fields)
      (Schema.liftValues owner fields) := by
  induction fields generalizing registry with
  | nil => exact .pure hlayered .nil
  | cons entry rest ih =>
    obtain ⟨hentry, hrest⟩ := List.forall_mem_cons.mp h
    exact keeps_cons_field (hentry _ registry hlayered) fun _ h => ih hrest h

theorem Additional.promote_keeps {additional : Additional}
    (h : ∀ value, additional = .schema value → ∀ name, Restoring value (value.lift name))
    (hlayered : registry.Layered) (owner : String) :
    registry.Keeps (fun last => Additional.Alike last.Restores additional)
      (Additional.promote owner additional) := by
  cases additional with
  | unstated => exact .pure hlayered .unstated
  | allowed flag => exact .pure hlayered (.allowed flag)
  | schema value =>
    exact (h value rfl _ registry hlayered).map fun _ _ hrestores => .schema hrestores

theorem lasting_additionalAlike (x y : Additional) :
    Lasting fun registry => Additional.Alike registry.Restores x y := by
  intro registry registry' hlayered hextends h
  exact h.imp fun a _ b hab => lasting_restores a b hlayered hextends hab

end Parts

/-- **The parts of a shape are promoted one by one.** -/
theorem Kind.promote_keeps {kind : Kind}
    (h : ∀ part ∈ kind.parts, ∀ name, Restoring part (part.lift name))
    (hlayered : registry.Layered) (owner hint : String) :
    registry.Keeps (fun last => kind.Rebuilt last.Restores) (kind.promote owner hint) := by
  cases kind with
  | object shape =>
    obtain ⟨hproperties, hadditional, hpatterns⟩ := ObjectSchema.forall_parts_iff.mp h
    obtain ⟨properties, required, additional, patterns, names⟩ := shape
    refine Keeps.map (p := fun last shape => ObjectSchema.Rebuilt last.Restores
      ⟨properties, required, additional, patterns, names⟩ shape) ?_ fun _ _ h => .object h
    refine .bind (fun _ => lasting_forall₂ lasting_fieldRestores _ _)
      (Schema.liftProperties_keeps hproperties hlayered owner) fun _ _ hlayered _ => ?_
    refine .bind (lasting_additionalAlike _)
      (Additional.promote_keeps hadditional hlayered owner) fun _ _ hlayered _ => ?_
    exact (Schema.liftValues_keeps hpatterns hlayered owner).map
      fun _ _ hmatched hundeclared hdeclared => ⟨hdeclared, rfl, hundeclared, hmatched, rfl⟩
  | listOf item =>
    exact (h item (List.mem_singleton_self _) hint registry hlayered).map fun _ _ h => .listOf h
  | tuple items => exact (Schema.liftTuple_keeps h hlayered hint 0).map fun _ _ h => .tuple h
  | allOf parts => exact (Schema.liftItems_keeps h hlayered hint).map fun _ _ h => .allOf h
  | anyOf branches => exact (Schema.liftItems_keeps h hlayered hint).map fun _ _ h => .anyOf h
  | _ => exact .pure hlayered (.leaf rfl)

/-! ### Calls -/

namespace Schema

/-- What is given a name is no reference, and stays none when its parts are rewritten. -/
theorem ne_ref_of_isPromotable {r : Schema → Schema → Prop} {kind : Kind}
    (h : schema.isPromotable = true) (hkind : schema.kind.Rebuilt r kind) (reference : String) :
    kind ≠ .ref reference := by
  rintro rfl
  have hreference : schema.kind = .ref reference := by
    generalize schema.kind = original at hkind
    cases hkind with
    | leaf _ => rfl
  simp [isPromotable, isStringEnum, Kind.isStringEnum, hreference] at h

/-- **A lifted schema can be put back.**  By induction on the schema: what it holds is lifted
first. -/
theorem restoring_lift (hdistinct : schema.DistinctNames) (hunlinked : schema.Unlinked)
    (name : String) : Restoring schema (schema.lift name) := by
  induction schema using induction_parts generalizing name with
  | h schema ih =>
    intro registry hlayered
    have hparts : ∀ part ∈ schema.kind.parts, ∀ name, Restoring part (part.lift name) :=
      fun part hpart => ih part hpart (hdistinct.parts part hpart) (hunlinked.parts part hpart)
    have hself : registry.Restores schema schema := restores_self hdistinct hunlinked
    obtain ⟨title, description, kind, extra⟩ := schema
    rw [lift]
    cases title with
    | some title => exact .pure hlayered hself
    | none =>
      refine .bind (lasting_rebuilt kind) (Kind.promote_keeps hparts hlayered name name)
        fun middle kind' hmiddle hkind => ?_
      split
      · next hpromotable =>
        have hregistered := hmiddle.keeps_insert name hdistinct.own rfl
          (ne_ref_of_isPromotable hpromotable hkind) hkind
        exact ⟨hregistered.grows, hregistered.layered, fun _ => hregistered.holds⟩
      · exact .pure hmiddle fun hkind => restores_of_rebuilt hdistinct.own hunlinked.own hkind

/-- **A promoted schema can be put back.** -/
theorem restoring_promote (hdistinct : schema.DistinctNames) (hunlinked : schema.Unlinked)
    (name : String) : Restoring schema (schema.promote name) := by
  intro registry hlayered
  have hparts : ∀ part ∈ schema.kind.parts, ∀ name, Restoring part (part.lift name) :=
    fun part hpart => restoring_lift (hdistinct.parts part hpart) (hunlinked.parts part hpart)
  exact (Kind.promote_keeps hparts hlayered _ name).map
    fun _ _ hkind => restores_of_rebuilt hdistinct.own hunlinked.own hkind

end Schema

/-- A call of promotion. -/
inductive Promotion
  /-- Promote what a named schema holds. -/
  | promote (name : String) (schema : Schema)
  /-- Promote the schema itself. -/
  | lift (name : String) (schema : Schema)

namespace Promotion

/-- The schema before the call. -/
def original : Promotion → Schema
  | .promote _ schema => schema
  | .lift _ schema => schema

/-- The call, with the rewritten schema as its value. -/
def run : Promotion → StateM Registry Schema
  | .promote name schema => schema.promote name
  | .lift name schema => schema.lift name

/-- Calls one after the other can all be undone with the registry they end with. -/
theorem keeps_runs {calls : List Promotion}
    (hdistinct : ∀ call ∈ calls, call.original.DistinctNames)
    (hunlinked : ∀ call ∈ calls, call.original.Unlinked) (hlayered : registry.Layered) :
    registry.Keeps (fun last => List.Forall₂ (fun call => last.Restores call.original) calls)
      (calls.mapM run) := by
  induction calls generalizing registry with
  | nil => exact .pure hlayered .nil
  | cons call rest ih =>
    obtain ⟨hcall, hrest⟩ := List.forall_mem_cons.mp hdistinct
    obtain ⟨hcall', hrest'⟩ := List.forall_mem_cons.mp hunlinked
    rw [List.mapM_cons]
    refine .cons (fun call : Promotion => lasting_restores call.original) (f := id) ?_
      fun _ h => ih hrest hrest' h
    cases call with
    | promote name schema => exact Schema.restoring_promote hcall hcall' name registry hlayered
    | lift name schema => exact Schema.restoring_lift hcall hcall' name registry hlayered

/-- **Promotion loses nothing.**  Calls on schemas without references to registered names, one
after the other and starting without entries, leave rewritten schemas behind.  Each of these
expands to the schema before its call, by the entries at the end.  The expansion stops: a depth
as large as the number of entries is enough, more changes nothing, and no reference is left. -/
theorem expandWithin_runs (reserved : List String) {calls : List Promotion}
    (hdistinct : ∀ call ∈ calls, call.original.DistinctNames)
    (hunlinked : ∀ call ∈ calls, call.original.Unlinked) :
    let outcome := (calls.mapM run).run (Registry.reserving reserved)
    let registry := outcome.2
    List.Forall₂ (fun call rewritten =>
        ∀ depth, registry.entries.length ≤ depth →
          registry.expandWithin depth rewritten =
              registry.expandWithin registry.entries.length rewritten ∧
            (registry.expandWithin depth rewritten).Unlinked ∧
            (registry.expandWithin depth rewritten == call.original) = true)
      calls outcome.1 := by
  intro outcome registry
  have hruns := keeps_runs hdistinct hunlinked (Registry.layered_reserving reserved)
  refine hruns.holds.imp fun call rewritten hrestores depth hdepth => ?_
  have hsame : registry.expandWithin depth rewritten =
      registry.expandWithin registry.entries.length rewritten :=
    (Registry.Extends.refl registry).expandWithin_eq hruns.layered hrestores.refers hdepth
      (Nat.le_refl _)
  refine ⟨hsame, hruns.layered.unlinked_expandWithin hrestores.refers hdepth, ?_⟩
  rw [hsame]
  exact hrestores.expands

/-- Settings with captions and a mode of their own, and a list of equal captions: the three
calls leave three entries, one of which refers to the two others. -/
theorem expandWithin_runs_settings :
    let captions : Schema := .ofKind (.object ⟨[("size", .ofKind (.primitive .integer))], [],
      .unstated, [], none⟩)
    let mode : Schema := .ofKind (.enum none [.string "on", .string "off"])
    let settings : Schema := .ofKind (.object ⟨[("captions", captions), ("mode", mode)], [],
      .unstated, [], none⟩)
    let calls : List Promotion := [.promote "Settings" settings, .lift "Settings" settings,
      .lift "SettingsCaptions" (.ofKind (.listOf captions))]
    let outcome := (calls.mapM run).run (Registry.reserving ["SettingsMode"])
    let registry := outcome.2
    (∀ call ∈ calls, call.original.DistinctNames) ∧ (∀ call ∈ calls, call.original.Unlinked) ∧
      Fields.keys registry.entries = ["SettingsCaptions", "SettingsMode2", "Settings"] ∧
      List.Forall₂ (fun call rewritten =>
          (registry.expandWithin registry.entries.length rewritten == call.original) = true)
        calls outcome.1 := by
  intro captions mode settings calls
  have hdistinct : ∀ call ∈ calls, call.original.DistinctNames := by decide
  have hunlinked : ∀ call ∈ calls, call.original.Unlinked := by decide
  have hkeys : Fields.keys ((calls.mapM run).run (Registry.reserving ["SettingsMode"])).2.entries =
      ["SettingsCaptions", "SettingsMode2", "Settings"] := by decide +kernel
  have hruns := expandWithin_runs ["SettingsMode"] hdistinct hunlinked
  -- The outcome is not to be computed again.
  revert hkeys hruns
  generalize (calls.mapM run).run (Registry.reserving ["SettingsMode"]) = outcome
  intro hkeys hruns
  exact ⟨hdistinct, hunlinked, hkeys, hruns.imp fun _ _ h => (h _ (Nat.le_refl _)).2.2⟩

end Promotion

end RpcSchema
