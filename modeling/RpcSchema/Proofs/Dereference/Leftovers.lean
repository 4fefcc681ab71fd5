import RpcSchema.Proofs.Dereference.Accounts
import RpcSchema.Proofs.Dereference.Canonical

/-!
# What is left in a result

Where no reference is kept and none is turned into a local one, all that a walk leaves are
markers, each with the canonical form of a reference that has a target.  So the references
in the result are canonical: read from the document worked on they have a target, and the
canonical form of a reference with that target is what is written.  All of them are logged.

This says nothing about where in the result a reference stands, so it holds whatever is
put together when keywords are laid over a target.

## Main definitions

* `Store.ReadsBack` — a reference that is its own canonical form.
* `Store.Remains` — such a reference, logged.
* `Json.Leftover` — a walked value in which all markers hold such references.

## Main results

* `distinctNames_of_dereferenceAt` — names in a result are distinct, and it has no markers.
* `Walks.leftover` — a walk leaves nothing but such markers.
* `remains_of_dereferenceAt` — so the result of dereferencing holds nothing else.
-/

namespace RpcSchema

/-- A reference has a target when it is read from a document, and is the canonical form of
a reference with that target. -/
def Store.ReadsBack (store : Store) (context : Source) (reference : String) : Prop :=
  ∃ target, store.locate? reference context = some target ∧
    target.canonical context.origin reference = reference

instance (store : Store) (context : Source) (reference : String) :
    Decidable (store.ReadsBack context reference) :=
  decidable_of_iff (∃ target ∈ store.locate? reference context,
    target.canonical context.origin reference = reference) Iff.rfl

/-- A reference reads back as itself, and is among those that are logged as left. -/
structure Store.Remains (store : Store) (context : Source) (logged : List BrokenCycle)
    (reference : String) : Prop where
  reads : store.ReadsBack context reference
  mem : reference ∈ logged.map BrokenCycle.reference

/-- A walked value holds no references but for markers that read back as themselves. -/
def Json.Leftover (store : Store) (context : Source) (logged : List BrokenCycle) :
    Json → Prop :=
  Json.Accounted (fun _ _ => False) fun _ => store.Remains context logged

/-! ### Distinct names -/

section Names

variable {store : Store} {options : DereferenceOptions} {context : store.Context}

/-- Walked members have the names that they had. -/
theorem WalksMembers.distinctNames_object {setting : WalkSetting} {frame : Frame}
    {fields fields' : Fields Json} {log log' : WalkLog}
    (h : WalksMembers setting frame fields log fields' log')
    (hnames : (Json.object fields).DistinctNames)
    (hparts : (∀ name part, (name, part) ∈ fields → part.DistinctNames) →
      ∀ name part, (name, part) ∈ fields' → part.DistinctNames) :
    (Json.object fields').DistinctNames := by
  obtain ⟨hkeys, hbefore⟩ := Json.everyObject_object_iff.mp hnames
  exact Json.everyObject_object_iff.mpr ⟨h.keys_eq ▸ hkeys, hparts hbefore⟩

mutual

/-- A walk keeps names distinct. -/
theorem Walks.distinctNames
    (hroots : ∀ source ∈ store.sources context, source.document.root.DistinctNames)
    {frame : Frame} {value walked : Json} {log log' : WalkLog} :
    Walks ⟨store, options⟩ frame value log walked log' → frame.Stands context →
      value.DistinctNames → walked.DistinctNames
  | .scalar hobject harray, _, _ => Json.everyObject_scalar hobject harray
  | .array hitems, hstands, hnames =>
    Json.everyObject_array_iff.mpr
      (hitems.distinctNames hroots hstands (Json.everyObject_array_iff.mp hnames))
  | .object _ hmembers, hstands, hnames =>
    hmembers.distinctNames_object hnames (hmembers.distinctNames hroots (hstands.inside _))
  | .keep _ _ hmembers, hstands, hnames =>
    hmembers.distinctNames_object hnames (hmembers.distinctNames hroots (hstands.inside _))
  | .copied _ _ hmembers _, hstands, hnames =>
    (hmembers.distinctNames_object hnames (hmembers.distinctNames hroots (hstands.inside _))).set
      (Json.everyObject_scalar rfl rfl) _
  | .copy _ _ hmembers _ _ _, hstands, hnames =>
    (hmembers.distinctNames_object hnames (hmembers.distinctNames hroots (hstands.inside _))).set
      (Json.everyObject_scalar rfl rfl) _
  | .leave _ _ hmembers, hstands, hnames => by
    have hwalked := hmembers.distinctNames_object hnames
      (hmembers.distinctNames hroots (hstands.inside _))
    exact (hwalked.swapErase _).set (Json.everyObject_scalar rfl rfl) _
  | .inline href _ hmembers htarget, hstands, hnames => by
    have hwalked := hmembers.distinctNames_object hnames
      (hmembers.distinctNames hroots (hstands.inside _))
    have hnode := Store.everyObject_of_locate? href.found hstands.source.mem_sources hroots
    exact (hwalked.swapErase _).overlayTarget
      (htarget.distinctNames hroots (hstands.expand href.found) hnode)

theorem WalksMembers.distinctNames
    (hroots : ∀ source ∈ store.sources context, source.document.root.DistinctNames)
    {frame : Frame} {fields fields' : Fields Json} {log log' : WalkLog} :
    WalksMembers ⟨store, options⟩ frame fields log fields' log' →
      frame.Stands context →
      (∀ name part, (name, part) ∈ fields → part.DistinctNames) →
        ∀ name part, (name, part) ∈ fields' → part.DistinctNames
  | .nil, _, _ => fun _ _ hmem => absurd hmem List.not_mem_nil
  | .data _ hrest, hstands, hnames => by
    have hothers := hrest.distinctNames hroots hstands
      fun name value hvalue => hnames name value (List.mem_cons_of_mem _ hvalue)
    intro other part hmem
    rcases List.mem_cons.mp hmem with heq | hmem
    · rw [(Prod.mk.inj heq).2]
      exact hnames _ _ (List.mem_cons_self ..)
    · exact hothers other part hmem
  | .member _ hpart hrest, hstands, hnames => by
    have hwalked := hpart.distinctNames hroots (hstands.goTo _) (hnames _ _ (List.mem_cons_self ..))
    have hothers := hrest.distinctNames hroots hstands
      fun name value hvalue => hnames name value (List.mem_cons_of_mem _ hvalue)
    intro other part hmem
    rcases List.mem_cons.mp hmem with heq | hmem
    · exact (Prod.mk.inj heq).2 ▸ hwalked
    · exact hothers other part hmem

theorem WalksItems.distinctNames
    (hroots : ∀ source ∈ store.sources context, source.document.root.DistinctNames)
    {frame : Frame} {index : Nat} {items items' : List Json} {log log' : WalkLog} :
    WalksItems ⟨store, options⟩ frame index items log items' log' →
      frame.Stands context → (∀ item ∈ items, item.DistinctNames) →
        ∀ item ∈ items', item.DistinctNames
  | .nil, _, _ => List.forall_mem_nil _
  | .item hitem hrest, hstands, hnames => by
    have hwalked := hitem.distinctNames hroots (hstands.goTo _) (hnames _ (List.mem_cons_self ..))
    have hothers := hrest.distinctNames hroots hstands
      fun item hitem => hnames item (List.mem_cons_of_mem _ hitem)
    exact List.forall_mem_cons.mpr ⟨hwalked, hothers⟩

end

/-- **Names in a result are distinct, and it has no markers.** -/
theorem distinctNames_of_dereferenceAt {node : Json} {path : String} {result : Dereferenced}
    (hnames : node.DistinctNames)
    (hroots : ∀ source ∈ store.sources context, source.document.root.DistinctNames)
    (h : store.dereferenceAt options node context path = .ok result) :
    result.schema.DistinctNames ∧ result.schema.Lacks markerKeyword := by
  obtain ⟨walked, log, hwalks, rfl⟩ := dereferenceAt_eq_ok_iff.mp h
  have hwalked := hwalks.distinctNames hroots (.start path) hnames
  exact ⟨Json.distinctNames_restoreMarkers hwalked, Json.lacks_restoreMarkers hwalked⟩

end Names

/-! ### Canonical references -/

section Canonical

variable {store : Store} {context : store.Context} {within : Source} {reference : String}
  {target : Target}

/-- The canonical form of a reference has the same fragment. -/
theorem Store.Stands.fragment_canonical (hids : ∀ entry ∈ store.bundles, entry.1 ≠ "")
    (h : store.Stands context target.source) :
    Reference.fragment (target.canonical context.origin reference)
      = Reference.fragment reference := by
  rcases h with hcontext | ⟨horigin, id, document, hdocument, hid, hbundle⟩
  · rw [Target.canonical, Source.canonical, if_pos (congrArg Source.origin hcontext)]
    exact Reference.fragment_fragment reference
  · have hne := hids _ (Fields.mem_of_get? hdocument)
    have hcanonical : target.canonical context.origin reference
        = id ++ Reference.fragment reference := by
      rw [Target.canonical, Source.canonical, if_neg horigin, hbundle,
        Store.id_of_bundle? hdocument]
      rfl
    change (Reference.split (target.canonical context.origin reference)).2 = _
    rw [hcanonical, Reference.split_append hne hid (Reference.startsHash_fragment reference)]

/-- A canonical reference reads back as itself. -/
theorem Store.readsBack_canonical (hids : ∀ entry ∈ store.bundles, entry.1 ≠ "")
    (hown : context.Unrivalled)
    (h : store.Stands context within) (hfound : store.locate? reference within = some target) :
    store.ReadsBack context (target.canonical context.origin reference) := by
  refine ⟨target, Store.locate?_canonical hids hown h hfound, ?_⟩
  have hfragment : Reference.fragment (target.canonical context.origin reference)
      = Reference.fragment reference := (h.locate? hfound).fragment_canonical hids
  rw [Target.canonical, hfragment, Target.canonical]

end Canonical

/-! ### One level -/

section Level

variable {store : Store} {context : Source} {logged : List BrokenCycle} {fields : Fields Json}
  {items : List Json}

/-- An object without reference and marker is a leftover when its members are. -/
theorem Json.leftover_object (href : referenceOf? fields = none)
    (hmarker : markerKeyword ∉ Fields.keys fields)
    (h : ∀ name part, (name, part) ∈ fields → isOpaqueKeyword name = false →
      part.Leftover store context logged) :
    (Json.object fields).Leftover store context logged := by
  refine Json.accounted_object_iff.mpr ⟨⟨fun reference hmade => ?_, fun marker hget => ?_⟩, ?_⟩
  · rw [href] at hmade
    cases hmade
  · exact absurd (Fields.mem_keys_of_mem (Fields.mem_of_get? hget)) hmarker
  · exact fun name part hname hget => h name part (Fields.mem_of_get? hget) hname

/-- An array is a leftover when its items are. -/
theorem Json.leftover_array (h : ∀ item ∈ items, item.Leftover store context logged) :
    (Json.array items).Leftover store context logged :=
  Json.accounted_array_iff.mpr fun _ item hget => h item (List.mem_of_getElem? hget)

/-- What stands beside a reference is a leftover, without the reference. -/
theorem Json.leftover_beside (hnames : (Fields.keys fields).Nodup)
    (hmarker : markerKeyword ∉ Fields.keys fields)
    (h : ∀ name part, (name, part) ∈ fields → isOpaqueKeyword name = false →
      part.Leftover store context logged) :
    (Json.object (Fields.swapErase fields "$ref")).Leftover store context logged := by
  refine Json.leftover_object ?_ ?_ ?_
  · rw [referenceOf?, Fields.get?_swapErase_self hnames]
    rfl
  · intro hmem
    obtain ⟨part, hpart⟩ := Fields.mem_keys.mp hmem
    exact hmarker (Fields.mem_keys_of_mem (Fields.mem_of_mem_swapErase hpart))
  · exact fun name part hmem => h name part (Fields.mem_of_mem_swapErase hmem)

end Level

/-! ### Walks -/

section Walks

variable {store : Store} {context : store.Context} {logged : List BrokenCycle}

mutual

/-- **A walk leaves nothing but markers that read back as themselves.** -/
theorem Walks.leftover (hids : ∀ entry ∈ store.bundles, entry.1 ≠ "")
    (hown : context.Unrivalled)
    (hroots : ∀ source ∈ store.sources context,
      source.document.root.Lacks markerKeyword ∧ source.document.root.DistinctNames)
    {frame : Frame} {value walked : Json} {log log' : WalkLog} :
    Walks ⟨store, .standard⟩ frame value log walked log' →
      log'.unresolved ⊆ logged → frame.Stands context →
      value.Lacks markerKeyword → value.DistinctNames → walked.Leftover store context logged
  | .scalar hobject harray, _, _, _, _ => Json.accounted_scalar hobject harray
  | .array hitems, hlogged, hstands, hmarker, hnames =>
    Json.leftover_array (hitems.leftover hids hown hroots hlogged hstands
      (Json.everyObject_array_iff.mp hmarker) (Json.everyObject_array_iff.mp hnames))
  | .object hnone hmembers, hlogged, hstands, hmarker, hnames => by
    obtain ⟨hself, hmarkers⟩ := Json.everyObject_object_iff.mp hmarker
    have hparts := hmembers.leftover hids hown hroots hlogged (hstands.inside _)
      hmarkers (Json.everyObject_object_iff.mp hnames).2
    refine Json.leftover_object ?_ (hmembers.keys_eq ▸ hself) hparts
    rw [referenceOf?, hmembers.get?_of_opaque (by decide), ← referenceOf?, hnone]
  -- No reference is kept and none is turned into a local one.
  | .keep _ htreat _, _, _, _, _ => by
    cases (Walk.treatment_eq_keep_iff.mp htreat).1
  | .copied _ htreat _ _, _, _, _, _ => by
    cases (Walk.origin_ne_context_of_copy htreat).1
  | .copy _ htreat _ _ _ _, _, _, _, _ => by
    cases (Walk.origin_ne_context_of_copy htreat).1
  | .leave href _ hmembers, hlogged, hstands, hmarker, hnames => by
    obtain ⟨hself, hmarkers⟩ := Json.everyObject_object_iff.mp hmarker
    obtain ⟨hkeys, hdistinct⟩ := Json.everyObject_object_iff.mp hnames
    have hparts := hmembers.leftover hids hown hroots
      (List.Subset.trans (List.subset_append_left _ _) hlogged) (hstands.inside _)
      hmarkers hdistinct
    have hbeside := Json.leftover_beside (hmembers.keys_eq ▸ hkeys) (hmembers.keys_eq ▸ hself)
      hparts
    exact accounted_mark hbeside
      ⟨hstands.home ▸ Store.readsBack_canonical hids hown hstands.source href.found,
        List.mem_map.mpr
          ⟨_, hlogged (List.mem_append_right _ (List.mem_singleton_self _)), rfl⟩⟩
  | .inline href _ hmembers htarget, hlogged, hstands, hmarker, hnames => by
    obtain ⟨hself, hmarkers⟩ := Json.everyObject_object_iff.mp hmarker
    obtain ⟨hkeys, hdistinct⟩ := Json.everyObject_object_iff.mp hnames
    have hparts := hmembers.leftover hids hown hroots
      (List.Subset.trans htarget.unresolved_subset hlogged) (hstands.inside _)
      hmarkers hdistinct
    have hbeside := Json.leftover_beside (hmembers.keys_eq ▸ hkeys) (hmembers.keys_eq ▸ hself)
      hparts
    have hroots' := fun source hsource => (hroots source hsource).2
    have hlacks := Store.everyObject_of_locate? href.found hstands.source.mem_sources
      fun source hsource => (hroots source hsource).1
    have hnode := Store.everyObject_of_locate? href.found hstands.source.mem_sources hroots'
    have hexpanded := htarget.leftover hids hown hroots hlogged (hstands.expand href.found)
      hlacks hnode
    have hwalked := hmembers.distinctNames_object hnames
      (hmembers.distinctNames hroots' (hstands.inside _))
    exact hbeside.overlayTarget_of_const (hwalked.swapErase _)
      (htarget.distinctNames hroots' (hstands.expand href.found) hnode) hexpanded

theorem WalksMembers.leftover (hids : ∀ entry ∈ store.bundles, entry.1 ≠ "")
    (hown : context.Unrivalled)
    (hroots : ∀ source ∈ store.sources context,
      source.document.root.Lacks markerKeyword ∧ source.document.root.DistinctNames)
    {frame : Frame} {fields fields' : Fields Json} {log log' : WalkLog} :
    WalksMembers ⟨store, .standard⟩ frame fields log fields' log' →
      log'.unresolved ⊆ logged → frame.Stands context →
      (∀ name part, (name, part) ∈ fields → part.Lacks markerKeyword) →
      (∀ name part, (name, part) ∈ fields → part.DistinctNames) →
        ∀ name part, (name, part) ∈ fields' → isOpaqueKeyword name = false →
          part.Leftover store context logged
  | .nil, _, _, _, _ => fun _ _ hmem => absurd hmem List.not_mem_nil
  | .data hname hrest, hlogged, hstands, hmarker, hnames => by
    have hothers := hrest.leftover hids hown hroots hlogged hstands
      (fun name value hvalue => hmarker name value (List.mem_cons_of_mem _ hvalue))
      (fun name value hvalue => hnames name value (List.mem_cons_of_mem _ hvalue))
    intro other part hmem hopen
    rcases List.mem_cons.mp hmem with heq | hmem
    · rw [(Prod.mk.inj heq).1, hname] at hopen
      cases hopen
    · exact hothers other part hmem hopen
  | .member _ hpart hrest, hlogged, hstands, hmarker, hnames => by
    have hwalked := hpart.leftover hids hown hroots
      (List.Subset.trans hrest.unresolved_subset hlogged) (hstands.goTo _)
      (hmarker _ _ (List.mem_cons_self ..)) (hnames _ _ (List.mem_cons_self ..))
    have hothers := hrest.leftover hids hown hroots hlogged hstands
      (fun name value hvalue => hmarker name value (List.mem_cons_of_mem _ hvalue))
      (fun name value hvalue => hnames name value (List.mem_cons_of_mem _ hvalue))
    intro other part hmem hopen
    rcases List.mem_cons.mp hmem with heq | hmem
    · exact (Prod.mk.inj heq).2 ▸ hwalked
    · exact hothers other part hmem hopen

theorem WalksItems.leftover (hids : ∀ entry ∈ store.bundles, entry.1 ≠ "")
    (hown : context.Unrivalled)
    (hroots : ∀ source ∈ store.sources context,
      source.document.root.Lacks markerKeyword ∧ source.document.root.DistinctNames)
    {frame : Frame} {index : Nat} {items items' : List Json} {log log' : WalkLog} :
    WalksItems ⟨store, .standard⟩ frame index items log items' log' →
      log'.unresolved ⊆ logged → frame.Stands context →
      (∀ item ∈ items, item.Lacks markerKeyword) → (∀ item ∈ items, item.DistinctNames) →
        ∀ item ∈ items', item.Leftover store context logged
  | .nil, _, _, _, _ => List.forall_mem_nil _
  | .item hitem hrest, hlogged, hstands, hmarker, hnames => by
    have hwalked := hitem.leftover hids hown hroots
      (List.Subset.trans hrest.unresolved_subset hlogged) (hstands.goTo _)
      (hmarker _ (List.mem_cons_self ..)) (hnames _ (List.mem_cons_self ..))
    have hothers := hrest.leftover hids hown hroots hlogged hstands
      (fun item hitem => hmarker item (List.mem_cons_of_mem _ hitem))
      (fun item hitem => hnames item (List.mem_cons_of_mem _ hitem))
    exact List.forall_mem_cons.mpr ⟨hwalked, hothers⟩

end

end Walks

/-- **All references in a result read back as themselves, and are logged**, if the value
and all documents are without markers. -/
theorem remains_of_dereferenceAt {store : Store} {context : store.Context} {node : Json}
    {path : String} {result : Dereferenced} (hids : ∀ entry ∈ store.bundles, entry.1 ≠ "")
    (hown : context.Unrivalled)
    (hmarker : node.Lacks markerKeyword) (hnames : node.DistinctNames)
    (hroots : ∀ source ∈ store.sources context,
      source.document.root.Lacks markerKeyword ∧ source.document.root.DistinctNames)
    (h : store.dereferenceAt .standard node context path = .ok result) {reference : String}
    (hholds : result.schema.HoldsReference reference) :
    store.Remains context result.unresolved reference := by
  obtain ⟨walked, log, hwalks, rfl⟩ := dereferenceAt_eq_ok_iff.mp h
  have hleftover := hwalks.leftover hids hown hroots (List.Subset.refl _) (.start path) hmarker
    hnames
  have hdistinct := hwalks.distinctNames (fun source hsource => (hroots source hsource).2)
    (.start path) hnames
  obtain ⟨steps, fields, hopen, hat, hmade⟩ := hholds
  exact (hleftover.restoreMarkers hdistinct hopen hat hmade).resolve_left id

end RpcSchema
