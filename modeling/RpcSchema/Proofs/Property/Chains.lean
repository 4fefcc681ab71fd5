import RpcSchema.Proofs.Distinct
import RpcSchema.Proofs.Store
import RpcSchema.Store.Property

/-!
# Chains of references

A reference leads to a part of a document, and when that part is a reference again the chain goes
on from the document in which it stands.  A chain can come to its end in three ways: in a schema
that is no reference, in a reference without a target, or not at all.  In the last case it comes
to some place for the second time, because there are only finitely many places of references; and
as a place tells what stands there, the chain runs in a circle.

So a chain that meets no place twice is not longer than there are places of references, and to
follow a chain is to find out which of the three ways it goes.

## Main definitions

* `Store.Holds` — the documents in reach that references can lead to.
* `Store.Chain`, `chainEnd` — chains of references, and what they lead to.
* `Store.EndsIn`, `Store.Dangles`, `Store.Returns` — the three ways that a chain goes.

## Main results

* `Json.mem_objectsWith` — the list of all objects that satisfy a test is complete.
* `Store.Chain.nodup_of_stuck` — a chain that cannot go on has met no place twice.
* `Store.Chain.length_le` — how long a chain is that meets no place twice.
* `Store.follow?_eq_some_iff`, `Store.follow?_eq_none_iff` — following a chain finds its end.
* `Store.propertyNames?_along_chain` — the names of the properties at the end of a chain.
-/

namespace RpcSchema

/-! ### Places of objects -/

namespace Json

variable {test : Fields Json → Bool} {way steps : List Step}

theorem mem_objectsWithFields {name : String} {part : Json} {fields : List (String × Json)}
    (hmem : (name, part) ∈ fields) (h : steps ∈ part.objectsWith test (.member name :: way)) :
    steps ∈ objectsWithFields test way fields := by
  induction fields with
  | nil => exact absurd hmem List.not_mem_nil
  | cons entry rest ih =>
    rw [objectsWithFields, List.mem_append]
    rcases List.mem_cons.mp hmem with rfl | hrest
    · exact Or.inl h
    · exact Or.inr (ih hrest)

theorem mem_objectsWithItems {index offset : Nat} {part : Json} {items : List Json}
    (hitem : items[offset]? = some part)
    (h : steps ∈ part.objectsWith test (.item (index + offset) :: way)) :
    steps ∈ objectsWithItems test way index items := by
  induction items generalizing index offset with
  | nil => cases hitem
  | cons item rest ih =>
    rw [objectsWithItems, List.mem_append]
    cases offset with
    | zero =>
      obtain rfl := Option.some.inj hitem
      exact Or.inl h
    | succ offset =>
      refine Or.inr (ih hitem ?_)
      rwa [show index + 1 + offset = index + (offset + 1) by omega]

/-- **The list of all objects that satisfy a test** has every such object. -/
theorem mem_objectsWith {value : Json} {fields : Fields Json}
    (hat : value.at? steps = some (.object fields)) (htest : test fields = true) :
    way.reverse ++ steps ∈ value.objectsWith test way := by
  induction steps generalizing value way with
  | nil =>
    obtain rfl := Option.some.inj hat
    rw [objectsWith, if_pos htest, List.append_nil]
    exact List.mem_append_left _ (List.mem_singleton_self _)
  | cons step steps ih =>
    obtain ⟨part, hchild, hbelow⟩ := Option.bind_eq_some_iff.mp hat
    have hpart : (step :: way).reverse ++ steps ∈ part.objectsWith test (step :: way) := ih hbelow
    rw [List.reverse_cons, List.append_assoc, List.singleton_append] at hpart
    cases value with
    | object members =>
      cases step with
      | item index => cases hchild
      | member name =>
        exact List.mem_append_right _ (mem_objectsWithFields (Fields.mem_of_get? hchild) hpart)
    | array items =>
      cases step with
      | member name => cases hchild
      | item index =>
        rw [objectsWith]
        exact mem_objectsWithItems hchild (by rwa [Nat.zero_add])
    | _ => cases step <;> cases hchild

theorem exists_object_of_reference? {node : Json} {reference : String}
    (h : node.reference? = some reference) :
    ∃ fields, node = .object fields ∧ holdsReference fields = true := by
  cases node with
  | object fields =>
    refine ⟨fields, rfl, ?_⟩
    rw [reference?, stringField?, field?_object] at h
    rw [holdsReference, h]
    rfl
  | _ => cases h

end Json

namespace Store

variable {store : Store} {context : Document} {within source : Source} {node last : Json}
  {reference : String} {target : Target} {chain other : List Target}

/-- `store.Holds context source` says that `source` is the document worked on, or the bundle that
is found under an id. -/
def Holds (store : Store) (context : Document) (source : Source) : Prop :=
  source = context.asContext ∨ ∃ id document, store.bundle? id = some document ∧
    source = ⟨.bundle id, document⟩

theorem Holds.locate? (h : store.Holds context within)
    (htarget : store.locate? reference within = some target) :
    store.Holds context target.source := by
  rcases source?_cases (locate?_eq_some_iff.mp htarget).1 with heq | ⟨id, document, -, hfound, heq⟩
  · exact heq ▸ h
  · exact Or.inr ⟨id, document, hfound, heq⟩

theorem Holds.mem_sources (h : store.Holds context source) :
    source ∈ store.sources context.asContext := by
  rcases h with rfl | ⟨id, document, hfound, rfl⟩
  · exact List.mem_cons_self ..
  · exact List.mem_cons_of_mem _ (List.mem_map.mpr ⟨(id, document), Fields.mem_of_get? hfound, rfl⟩)

/-- Where a document stands tells what it holds. -/
theorem Holds.eq_of_origin (h : store.Holds context within) (h' : store.Holds context source)
    (horigin : within.origin = source.origin) : within = source := by
  rcases h with rfl | ⟨id, document, hfound, rfl⟩ <;>
    rcases h' with rfl | ⟨id', document', hfound', rfl⟩
  · rfl
  · cases horigin
  · cases horigin
  · obtain rfl : id = id' := Origin.bundle.inj horigin
    rw [Option.some.inj (hfound.symm.trans hfound')]

/-- A place that satisfies a test is in the list of such places. -/
theorem mem_placesWith {test : Fields Json → Bool} {base : Source} {steps : List Step}
    {fields : Fields Json} (hsource : source ∈ store.sources base)
    (hat : source.document.root.at? steps = some (.object fields)) (htest : test fields = true) :
    ⟨source.origin, steps⟩ ∈ store.placesWith test base :=
  List.mem_flatMap.mpr ⟨source, hsource,
    List.mem_map.mpr ⟨steps, Json.mem_objectsWith hat htest, rfl⟩⟩

/-- The place of a target that is itself a reference is in the list of such places. -/
theorem mem_placesWith_of_reference? {base : Source} (hsource : target.source ∈ store.sources base)
    (hat : target.source.document.root.at? target.steps = some target.node)
    (hreference : target.node.reference? = some reference) :
    target.place ∈ store.placesWith holdsReference base := by
  obtain ⟨fields, hfields, htest⟩ := Json.exists_object_of_reference? hreference
  rw [hfields] at hat
  exact mem_placesWith hsource hat htest

/-! ### Chains -/

/-- A chain of references, given by their targets: each reference is looked up in the document that
it stands in, and its target is the next reference. -/
inductive Chain (store : Store) : Source → Json → List Target → Prop
  | nil {within : Source} {node : Json} : Chain store within node []
  | cons {within : Source} {node : Json} {reference : String} {target : Target}
      {rest : List Target} (hreference : node.reference? = some reference)
      (htarget : store.locate? reference within = some target)
      (hrest : Chain store target.source target.node rest) :
      Chain store within node (target :: rest)

/-- What a chain leads to, and the document in which that stands. -/
def chainEnd (within : Source) (node : Json) : List Target → Source × Json
  | [] => (within, node)
  | target :: rest => chainEnd target.source target.node rest

/-- The chain from a schema ends in a schema that is no reference. -/
def EndsIn (store : Store) (within : Source) (node : Json) (source : Source) (last : Json) : Prop :=
  ∃ chain, store.Chain within node chain ∧ chainEnd within node chain = (source, last) ∧
    last.reference? = none

/-- The chain from a schema meets a reference without a target. -/
def Dangles (store : Store) (within : Source) (node : Json) : Prop :=
  ∃ chain source last reference, store.Chain within node chain ∧
    chainEnd within node chain = (source, last) ∧ last.reference? = some reference ∧
    store.locate? reference source = none

/-- The chain from a schema comes to some place for the second time. -/
def Returns (store : Store) (within : Source) (node : Json) : Prop :=
  ∃ chain, store.Chain within node chain ∧ ¬(chain.map Target.place).Nodup

/-- No reference leads on from a schema. -/
def Stuck (store : Store) (reached : Source × Json) : Prop :=
  ∀ reference, reached.2.reference? = some reference → store.locate? reference reached.1 = none

namespace Chain

/-- A chain that cannot go on has all others as beginnings. -/
theorem prefix_of_stuck (h : store.Chain within node chain)
    (hstuck : store.Stuck (chainEnd within node chain)) (hother : store.Chain within node other) :
    other <+: chain := by
  induction hother generalizing chain with
  | nil => exact List.nil_prefix
  | cons hreference htarget _ ih =>
    cases h with
    | nil => exact absurd (htarget.symm.trans (hstuck _ hreference)) (Option.some_ne_none _)
    | cons hreference' htarget' hrest =>
      obtain rfl := Option.some.inj (hreference.symm.trans hreference')
      obtain rfl := Option.some.inj (htarget.symm.trans htarget')
      exact List.cons_prefix_cons.mpr ⟨rfl, ih hrest hstuck⟩

/-- A chain in two parts. -/
theorem of_append {before after : List Target}
    (h : store.Chain within node (before ++ target :: after)) :
    store.Chain target.source target.node after ∧
      chainEnd within node (before ++ target :: after)
        = chainEnd target.source target.node after := by
  induction before generalizing within node with
  | nil =>
    cases h with
    | cons _ _ hrest => exact ⟨hrest, rfl⟩
  | cons first before ih =>
    cases h with
    | cons _ _ hrest => exact ih hrest

/-- The targets on a chain are parts of their documents. -/
theorem at?_of_mem (h : store.Chain within node chain) (hmem : target ∈ chain) :
    target.source.document.root.at? target.steps = some target.node := by
  induction h with
  | nil => exact absurd hmem List.not_mem_nil
  | cons _ htarget _ ih =>
    rcases List.mem_cons.mp hmem with rfl | hmem
    · exact Json.at?_of_descend? (locate?_eq_some_iff.mp htarget).2
    · exact ih hmem

/-- They stand in documents that references can lead to. -/
theorem mem_holds (h : store.Chain within node chain) (hwithin : store.Holds context within)
    (hmem : target ∈ chain) : store.Holds context target.source := by
  induction h with
  | nil => exact absurd hmem List.not_mem_nil
  | cons _ htarget _ ih =>
    have hholds := hwithin.locate? htarget
    rcases List.mem_cons.mp hmem with rfl | hmem
    · exact hholds
    · exact ih hholds hmem

/-- A chain leads to its last target, if it has any. -/
theorem chainEnd_cases (h : store.Chain within node chain) :
    chainEnd within node chain = (within, node) ∨
      ∃ target ∈ chain, chainEnd within node chain = (target.source, target.node) := by
  induction h with
  | nil => exact Or.inl rfl
  | @cons _ _ _ target _ _ _ _ ih =>
    rcases ih with hend | ⟨later, hmem, hend⟩
    · exact Or.inr ⟨target, List.mem_cons_self, hend⟩
    · exact Or.inr ⟨later, List.mem_cons_of_mem _ hmem, hend⟩

/-- **A chain that cannot go on has met no place twice**: what stands there would lead on as it did
before. -/
theorem nodup_of_stuck (hwithin : store.Holds context within)
    (h : store.Chain within node chain) (hstuck : store.Stuck (chainEnd within node chain)) :
    (chain.map Target.place).Nodup := by
  induction h with
  | nil => exact List.nodup_nil
  | @cons within node reference first rest hreference htarget hrest ih =>
    have hholds := hwithin.locate? htarget
    rw [List.map_cons, List.nodup_cons]
    refine ⟨fun hmem => ?_, ih hholds hstuck⟩
    obtain ⟨again, hagain, hplace⟩ := List.mem_map.mp hmem
    have hat := hrest.at?_of_mem hagain
    have hsource := hrest.mem_holds hholds hagain
    obtain ⟨before, after, rfl⟩ := List.append_of_mem hagain
    obtain ⟨hafter, hend⟩ := hrest.of_append
    -- The same place is the same target, so that from there the whole of the chain is no longer than
    -- a part of it.
    have hat' := Json.at?_of_descend? (locate?_eq_some_iff.mp htarget).2
    have hsame := hsource.eq_of_origin hholds (congrArg Place.origin hplace)
    have hnode : again.node = first.node := by
      rw [hsame, show again.steps = first.steps from congrArg Place.steps hplace, hat'] at hat
      exact (Option.some.inj hat).symm
    rw [hsame, hnode] at hafter hend
    have hstart := hafter.prefix_of_stuck (hend ▸ hstuck) hrest
    have hlength := hstart.length_le
    rw [List.length_append, List.length_cons] at hlength
    omega

/-- All targets but the last are references. -/
theorem reference_of_mem_dropLast (h : store.Chain within node chain)
    (hmem : target ∈ chain.dropLast) : ∃ reference, target.node.reference? = some reference := by
  induction h with
  | nil => exact absurd hmem List.not_mem_nil
  | cons _ _ hrest ih =>
    cases hrest with
    | nil => exact absurd hmem List.not_mem_nil
    | cons hreference _ _ =>
      rcases List.mem_cons.mp hmem with rfl | hmem
      · exact ⟨_, hreference⟩
      · exact ih hmem

/-- The targets on a chain stand in documents in reach. -/
theorem mem_sources {base : Source} (h : store.Chain within node chain)
    (hwithin : within ∈ store.sources base) (hmem : target ∈ chain) :
    target.source ∈ store.sources base := by
  induction h with
  | nil => exact absurd hmem List.not_mem_nil
  | cons _ htarget _ ih =>
    have hsource := mem_sources_of_locate? htarget hwithin
    rcases List.mem_cons.mp hmem with rfl | hmem
    · exact hsource
    · exact ih hsource hmem

/-- **How long a chain is that meets no place twice**: there is one place for each reference on it
but the first. -/
theorem length_le (h : store.Chain within node chain)
    (hplaces : (chain.map Target.place).Nodup) :
    chain.length ≤ (store.placesWith holdsReference within).length + 1 := by
  have hnodup : (chain.dropLast.map Target.place).Nodup :=
    hplaces.sublist ((List.dropLast_sublist chain).map _)
  have hsubset : chain.dropLast.map Target.place ⊆ store.placesWith holdsReference within := by
    intro place hplace
    obtain ⟨target, hmem, rfl⟩ := List.mem_map.mp hplace
    have hchain := (List.dropLast_sublist chain).subset hmem
    obtain ⟨reference, hreference⟩ := h.reference_of_mem_dropLast hmem
    exact mem_placesWith_of_reference? (h.mem_sources (List.mem_cons_self ..) hchain)
      (h.at?_of_mem hchain) hreference
  have hlength := (List.subperm_of_subset hnodup hsubset).length_le
  rw [List.length_map, List.length_dropLast] at hlength
  omega

end Chain

/-! ### Following a chain -/

theorem EndsIn.cons (hreference : node.reference? = some reference)
    (htarget : store.locate? reference within = some target)
    (h : store.EndsIn target.source target.node source last) :
    store.EndsIn within node source last := by
  obtain ⟨chain, hchain, hend, hlast⟩ := h
  exact ⟨target :: chain, .cons hreference htarget hchain, hend, hlast⟩

theorem Dangles.cons (hreference : node.reference? = some reference)
    (htarget : store.locate? reference within = some target)
    (h : store.Dangles target.source target.node) : store.Dangles within node := by
  obtain ⟨chain, source, last, final, hchain, hend, hlast⟩ := h
  exact ⟨target :: chain, source, last, final, .cons hreference htarget hchain, hend, hlast⟩

/-- What is found at the end of a chain is its end. -/
theorem endsIn_of_followUnmet {unmet : List Place}
    (h : store.followUnmet unmet within node = some (source, last)) :
    store.EndsIn within node source last := by
  fun_induction store.followUnmet unmet within node with
  | case1 unmet within node hnone =>
    cases h
    exact ⟨[], .nil, rfl, hnone⟩
  | case2 => cases h
  | case3 unmet within node reference hreference target htarget hnone =>
    cases h
    exact .cons hreference htarget ⟨[], .nil, rfl, Option.isNone_iff_eq_none.mp hnone⟩
  | case4 unmet within node reference hreference target htarget _ _ ih =>
    exact .cons hreference htarget (ih h)
  | case5 => cases h

/-- A chain that is given up has met a reference without a target, or a place for the second time.
Every place of a reference in reach is unmet, or it is among those met before. -/
theorem dangles_or_met_of_followUnmet {base : Source} {unmet met : List Place}
    (hwithin : within ∈ store.sources base)
    (hcover : ∀ place ∈ store.placesWith holdsReference base, place ∈ unmet ∨ place ∈ met)
    (h : store.followUnmet unmet within node = none) :
    store.Dangles within node ∨
      ∃ chain, store.Chain within node chain ∧ ¬(met ++ chain.map Target.place).Nodup := by
  fun_induction store.followUnmet unmet within node generalizing met with
  | case1 => cases h
  | case2 unmet within node reference hreference hnone =>
    exact Or.inl ⟨[], within, node, reference, .nil, rfl, hreference, hnone⟩
  | case3 => cases h
  | case4 unmet within node reference hreference target htarget _ _ ih =>
    -- The place moves from the unmet ones to those met, so every place stays covered.
    have hcover' : ∀ place ∈ store.placesWith holdsReference base,
        place ∈ unmet.erase target.place ∨ place ∈ met ++ [target.place] := by
      intro place hplace
      by_cases heq : place = target.place
      · exact Or.inr (heq ▸ List.mem_append_right _ (List.mem_singleton_self _))
      · exact (hcover place hplace).imp (List.mem_erase_of_ne heq).mpr (List.mem_append_left _)
    have htarget' := mem_sources_of_locate? htarget hwithin
    rcases ih htarget' hcover' h with hdangles | ⟨chain, hchain, hmet⟩
    · exact Or.inl (hdangles.cons hreference htarget)
    · refine Or.inr ⟨target :: chain, .cons hreference htarget hchain, ?_⟩
      rwa [List.append_assoc, List.singleton_append] at hmet
  -- The target is a place of a reference in reach and no longer unmet, so it was met before.
  | case5 unmet within node reference hreference target htarget hsome hunmet =>
    refine Or.inr ⟨[target], .cons hreference htarget .nil, fun hnodup => ?_⟩
    obtain ⟨next, hnext⟩ : ∃ next, target.node.reference? = some next :=
      Option.ne_none_iff_exists'.mp (by simpa using hsome)
    have hplace := mem_placesWith_of_reference? (mem_sources_of_locate? htarget hwithin)
      (Json.at?_of_descend? (locate?_eq_some_iff.mp htarget).2) hnext
    have hmet := (hcover _ hplace).resolve_left hunmet
    exact (List.nodup_append.mp hnodup).2.2 _ hmet _ (List.mem_singleton_self _) rfl

/-- A chain that cannot go on goes no other way. -/
theorem eq_of_stuck {chain' : List Target} (h : store.Chain within node chain)
    (hstuck : store.Stuck (chainEnd within node chain)) (h' : store.Chain within node chain')
    (hstuck' : store.Stuck (chainEnd within node chain')) : chain = chain' :=
  (h'.prefix_of_stuck hstuck' h).eq_of_length_le (h.prefix_of_stuck hstuck h').length_le

theorem stuck_of_reference?_eq_none (h : last.reference? = none) : store.Stuck (source, last) :=
  fun _ hreference => absurd (h.symm.trans hreference) (Option.some_ne_none _).symm

/-- A chain with an end has no other one, and goes no other way. -/
theorem EndsIn.unique (hwithin : store.Holds context within)
    (h : store.EndsIn within node source last) :
    (∀ source' last', store.EndsIn within node source' last' → source' = source ∧ last' = last) ∧
      ¬store.Dangles within node ∧ ¬store.Returns within node := by
  obtain ⟨chain, hchain, hend, hlast⟩ := h
  have hstuck : store.Stuck (chainEnd within node chain) := hend ▸ stuck_of_reference?_eq_none hlast
  refine ⟨?_, ?_, ?_⟩
  · rintro source' last' ⟨chain', hchain', hend', hlast'⟩
    have heq := eq_of_stuck hchain hstuck hchain'
      (hend' ▸ stuck_of_reference?_eq_none hlast')
    rw [heq, hend', Prod.mk.injEq] at hend
    exact hend
  · rintro ⟨chain', source', last', reference, hchain', hend', hreference, hnone⟩
    have hstuck' : store.Stuck (chainEnd within node chain') := by
      intro other hother
      rw [hend'] at hother ⊢
      obtain rfl := Option.some.inj (hreference.symm.trans hother)
      exact hnone
    have heq := eq_of_stuck hchain hstuck hchain' hstuck'
    rw [heq, hend', Prod.mk.injEq] at hend
    rw [← hend.2, hreference] at hlast
    cases hlast
  · rintro ⟨chain', hchain', hplaces⟩
    have hstart := hchain.prefix_of_stuck hstuck hchain'
    exact hplaces ((hchain.nodup_of_stuck hwithin hstuck).sublist (hstart.sublist.map _))

/-- **A chain is given up** when it meets a reference without a target or returns to some place. -/
theorem follow?_eq_none_iff (hwithin : store.Holds context within) :
    store.follow? within node = none ↔ store.Dangles within node ∨ store.Returns within node := by
  constructor
  · intro h
    have hcover : ∀ place ∈ store.placesWith holdsReference within,
        place ∈ store.placesWith holdsReference within ∨ place ∈ ([] : List Place) :=
      fun _ hplace => Or.inl hplace
    exact dangles_or_met_of_followUnmet (List.mem_cons_self ..) hcover h
  · intro h
    cases hfollow : store.follow? within node with
    | none => rfl
    | some found =>
      obtain ⟨-, hdangles, hreturns⟩ := (endsIn_of_followUnmet hfollow).unique hwithin
      exact absurd h (not_or.mpr ⟨hdangles, hreturns⟩)

/-- **Following a chain** finds its end. -/
theorem follow?_eq_some_iff (hwithin : store.Holds context within) :
    store.follow? within node = some (source, last) ↔ store.EndsIn within node source last := by
  refine ⟨endsIn_of_followUnmet, fun h => ?_⟩
  obtain ⟨hunique, hdangles, hreturns⟩ := h.unique hwithin
  cases hfollow : store.follow? within node with
  | none =>
    exact absurd ((follow?_eq_none_iff hwithin).mp hfollow) (not_or.mpr ⟨hdangles, hreturns⟩)
  | some found =>
    obtain ⟨rfl, rfl⟩ := hunique _ _ (endsIn_of_followUnmet hfollow)
    rfl

end Store

/-! ### The names of properties -/

/-- The names of the properties that a schema declares. -/
def Json.declaredNames (node : Json) : List String :=
  (((node.field? "properties").bind Json.object?).map Fields.keys).getD []

theorem Json.nodup_declaredNames {node : Json} (h : node.DistinctNames) :
    node.declaredNames.Nodup := by
  unfold declaredNames
  cases hkeys : (((node.field? "properties").bind object?).map Fields.keys) with
  | none => exact List.nodup_nil
  | some keys =>
    obtain ⟨members, hmembers, rfl⟩ := Option.map_eq_some_iff.mp hkeys
    obtain ⟨properties, hproperties, hobject⟩ := Option.bind_eq_some_iff.mp hmembers
    obtain ⟨fields, hfields, hget⟩ := Option.bind_eq_some_iff.mp hproperties
    cases node with
    | object _ =>
      obtain rfl := Option.some.inj hfields
      cases properties with
      | object _ =>
        obtain rfl := Option.some.inj hobject
        exact (everyObject_object_iff.mp (h.of_hasPart (.member (Fields.mem_of_get? hget)))).1
      | _ => cases hobject
    | _ => cases hfields

namespace Store

variable {store : Store} {context : Document} {within source : Source} {node last : Json}
  {names : List String}

/-- The schema at the end of a chain has the distinct names that all values have. -/
theorem EndsIn.everyObject {p : Fields Json → Prop} (h : store.EndsIn within node source last)
    (hwithin : within ∈ store.sources context.asContext) (hnode : node.EveryObject p)
    (hroots : ∀ source ∈ store.sources context.asContext, source.document.root.EveryObject p) :
    last.EveryObject p := by
  obtain ⟨chain, hchain, hend, -⟩ := h
  induction hchain with
  | nil =>
    obtain ⟨-, rfl⟩ := Prod.mk.inj hend
    exact hnode
  | cons _ htarget _ ih =>
    exact ih (mem_sources_of_locate? htarget hwithin)
      (everyObject_of_locate? htarget hwithin hroots) hend

theorem propertyNames?_of_follow? (h : store.follow? within node = some (source, last)) :
    store.propertyNames? node within
      = if last.isObjectSchema then some (unionOf last.declaredNames (listedNames last))
        else none := by
  rw [propertyNames?, h]
  rfl

theorem propertyNames?_eq_none_iff :
    store.propertyNames? node within = none ↔
      store.follow? within node = none ∨
        ∃ source last, store.follow? within node = some (source, last) ∧
          last.isObjectSchema = false := by
  cases hfollow : store.follow? within node with
  | none => simp [propertyNames?, hfollow]
  | some found =>
    obtain ⟨source, last⟩ := found
    rw [propertyNames?_of_follow? hfollow]
    simp

theorem propertyNames?_eq_some_iff :
    store.propertyNames? node within = some names ↔
      ∃ source last, store.follow? within node = some (source, last) ∧
        last.isObjectSchema = true ∧ names = unionOf last.declaredNames (listedNames last) := by
  cases hfollow : store.follow? within node with
  | none => simp [propertyNames?, hfollow]
  | some found =>
    obtain ⟨source, last⟩ := found
    rw [propertyNames?_of_follow? hfollow]
    constructor
    · intro h
      obtain ⟨hobject, hnames⟩ := Option.ite_none_right_eq_some.mp h
      exact ⟨source, last, rfl, hobject, (Option.some.inj hnames).symm⟩
    · rintro ⟨source', last', heq, hobject, rfl⟩
      obtain ⟨-, rfl⟩ := Prod.mk.inj (Option.some.inj heq)
      rw [if_pos hobject]

/-- **The names of the properties at the end of a chain.**  A chain that meets no place twice is no
longer than there are places of references; there are no names exactly if the chain from the
schema meets a reference without a target, returns to some place, or ends in a schema that is not
that of an object; and otherwise the names are those declared at its end and then those listed. -/
theorem propertyNames?_along_chain (hwithin : store.Holds context within)
    (hnode : node.DistinctNames)
    (hroots : ∀ source ∈ store.sources context.asContext, source.document.root.DistinctNames) :
    (∀ chain, store.Chain within node chain → (chain.map Target.place).Nodup →
      chain.length ≤ (store.placesWith holdsReference within).length + 1) ∧
    (store.propertyNames? node within = none ↔
      store.Dangles within node ∨ store.Returns within node ∨
        ∃ source last, store.EndsIn within node source last ∧ last.isObjectSchema = false) ∧
    ∀ names, store.propertyNames? node within = some names ↔
      names.Nodup ∧ ∃ source last, store.EndsIn within node source last ∧
        last.isObjectSchema = true ∧
        names = last.declaredNames
          ++ ((listedNames last).filter
            fun name => !last.declaredNames.contains name).eraseDups := by
  refine ⟨fun chain hchain hplaces => hchain.length_le hplaces, ?_, fun names => ?_⟩
  · simp only [propertyNames?_eq_none_iff, follow?_eq_none_iff hwithin,
      follow?_eq_some_iff hwithin, or_assoc]
  · simp only [propertyNames?_eq_some_iff, follow?_eq_some_iff hwithin]
    constructor
    · rintro ⟨source, last, hend, hobject, rfl⟩
      have hdistinct : last.DistinctNames := hend.everyObject hwithin.mem_sources hnode hroots
      exact ⟨nodup_unionOf (Json.nodup_declaredNames hdistinct), source, last, hend, hobject,
        unionOf_eq_append_eraseDups⟩
    · rintro ⟨-, source, last, hend, hobject, rfl⟩
      exact ⟨source, last, hend, hobject, unionOf_eq_append_eraseDups.symm⟩

/-- A bundle in which one schema stands for another, and one for itself. -/
def shapesBundle : Document where
  id := some "shapes"
  title := "Shapes"
  root := .object [("definitions", .object [
    ("Box", .object [("$ref", .string "#/definitions/Crate")]),
    ("Crate", .object [("type", .string "object"),
      ("properties", .object [("size", .object []), ("label", .object [])]),
      ("propertyNames", .object [("enum", .strings ["label", "color", "color"])])]),
    ("Ring", .object [("$ref", .string "shapes#/definitions/Ring")])])]

def shapesStore : Store := empty.register "shapes" shapesBundle

def shelfDocument : Document := ⟨none, "Shelf", .object []⟩

theorem propertyNames?_along_chain_shapes :
    shapesStore.Holds shelfDocument shelfDocument.asContext ∧
      (∀ source ∈ shapesStore.sources shelfDocument.asContext,
        source.document.root.DistinctNames) ∧
      shapesStore.propertyNames? (.object [("$ref", .string "shapes#/definitions/Box")])
        shelfDocument.asContext = some ["size", "label", "color"] ∧
      shapesStore.propertyNames? (.object [("$ref", .string "shapes#/definitions/Ring")])
        shelfDocument.asContext = none := by
  have hwithin : shapesStore.Holds shelfDocument shelfDocument.asContext := Or.inl rfl
  have hroots : ∀ source ∈ shapesStore.sources shelfDocument.asContext,
      source.document.root.DistinctNames := by decide
  refine ⟨hwithin, hroots, ?_, ?_⟩
  · have hbox : (Json.object [("$ref", .string "shapes#/definitions/Box")]).DistinctNames := by
      decide
    obtain ⟨-, -, hnames⟩ := propertyNames?_along_chain hwithin hbox hroots
    exact (hnames _).mpr
      ⟨by decide, _, _, ⟨[_, _], .cons rfl rfl (.cons rfl rfl .nil), rfl, rfl⟩, rfl, rfl⟩
  · have hring : (Json.object [("$ref", .string "shapes#/definitions/Ring")]).DistinctNames := by
      decide
    obtain ⟨-, hnone, -⟩ := propertyNames?_along_chain hwithin hring hroots
    exact hnone.mpr (Or.inr (Or.inl ⟨[_, _], .cons rfl rfl (.cons rfl rfl .nil), by decide⟩))

end Store

end RpcSchema
